import GhostDag.Graphene.Sketch
import GhostDag.Lib.Loops

/-!
# GhostDag.Graphene.Peeling

What `IBLT::listEntries` lists.

The loop keeps to one invariant (`Peeling`): the table that is left stands for
the keys that have not been listed.  As long as the tests of the entries are
truthful (`Truthful`), a pure entry names a key of the table and its sign, so
each pass lists keys and the loop ends; and when the first partition is empty
no key is left, since every key falls into it.
-/

namespace GhostDag

namespace Listing

/-- The keys of a listing. -/
def keys (l : Listing) : List Nat := l.map Prod.fst

theorem mem_keys_emplace {l : Listing} {x : Nat × ValueBytes} {k : Nat} :
    k ∈ (l.emplace x).keys ↔ k = x.1 ∨ k ∈ l.keys := by
  simp only [keys, List.mem_map, mem_emplace]
  constructor
  · rintro ⟨y, rfl | hy, rfl⟩
    · exact .inl rfl
    · exact .inr ⟨y, hy, rfl⟩
  · rintro (rfl | ⟨y, hy, rfl⟩)
    · exact ⟨x, .inl rfl, rfl⟩
    · exact ⟨y, .inr hy, rfl⟩

/-- A key that is not listed yet is listed once. -/
theorem nodup_keys_emplace {l : Listing} {x : Nat × ValueBytes} (h : l.keys.Nodup)
    (hx : x.1 ∉ l.keys) : (l.emplace x).keys.Nodup := by
  unfold emplace
  rw [if_neg fun hmem => hx (List.mem_map_of_mem hmem)]
  have hperm : (keys (l.orderedInsert le x)).Perm (x.1 :: l.keys) :=
    (List.perm_orderedInsert le x l).map Prod.fst
  exact hperm.nodup_iff.mpr (List.nodup_cons.mpr ⟨hx, h⟩)

section Sides

variable {p : Prop} [Decidable p] {l : Listing} {x : Nat × ValueBytes}

/-- A listing of one sign gets the key if it has that sign. -/
theorem mem_keys_ite {k : Nat} :
    k ∈ (if p then l.emplace x else l).keys ↔ p ∧ k = x.1 ∨ k ∈ l.keys := by
  split
  · next hp => rw [mem_keys_emplace, and_iff_right hp]
  · next hp => exact (or_iff_right fun h => hp h.1).symm

theorem nodup_keys_ite (h : l.keys.Nodup) (hx : x.1 ∉ l.keys) :
    (if p then l.emplace x else l).keys.Nodup := by
  split
  · exact nodup_keys_emplace h hx
  · exact h

end Sides

end Listing

namespace Iblt

variable {murmurHash3 : ℕ → ℕ → ℕ} {t : Iblt} {D : ℕ →₀ ℤ}

/-! ## truthful tables -/

/-- The tables that taking pure entries out leads to, each with the keys that
are left in it. -/
inductive PartialPeeling (murmurHash3 : ℕ → ℕ → ℕ) (t : Iblt) (D : ℕ →₀ ℤ) :
    Iblt → (ℕ →₀ ℤ) → Prop
  | start : PartialPeeling murmurHash3 t D t D
  | peel {u u' : Iblt} {E : ℕ →₀ ℤ} {j x : ℕ} {e : HashTableEntry} :
      PartialPeeling murmurHash3 t D u E → u.hashTable[j]? = some e →
      e.isPure murmurHash3 = true → x ∈ E.support →
      Holds murmurHash3 u.numHashes u.bucketsPerHash x j →
      u._insert false murmurHash3 (-e.count) e.keySum (valueSumAt j) = .ok u' →
      PartialPeeling murmurHash3 t D u' (E.erase x)

/-- On a table and all its partial peelings, an entry tested pure holds exactly
one key, and an entry tested empty none. -/
def Truthful (murmurHash3 : ℕ → ℕ → ℕ) (t : Iblt) (D : ℕ →₀ ℤ) : Prop :=
  ∀ (u : Iblt) (E : ℕ →₀ ℤ), PartialPeeling murmurHash3 t D u E →
    ∀ (j : ℕ) (e : HashTableEntry), u.hashTable[j]? = some e →
      (e.isPure murmurHash3 = true →
        ∃! x, x ∈ E.support ∧ Holds murmurHash3 u.numHashes u.bucketsPerHash x j) ∧
      (e.empty = true →
        ∀ x ∈ E.support, ¬ Holds murmurHash3 u.numHashes u.bucketsPerHash x j)

/-! ## the loop -/

/-- **The invariant of the loop**: the keys that are left in the table are
those that have not been listed. -/
structure Peeling (murmurHash3 : ℕ → ℕ → ℕ) (t : Iblt) (D : ℕ →₀ ℤ) (st : Peeled) (E : ℕ →₀ ℤ) :
    Prop where
  partialPeeling : PartialPeeling murmurHash3 t D st.table E
  shape : SameShape t st.table
  encodes : Encodes murmurHash3 st.table E
  left : ∀ x, E x = D x ∨ E x = 0 ∧ (D x = 1 ∨ D x = -1)
  mem_positive : ∀ x, x ∈ st.positive.keys ↔ D x = 1 ∧ E x = 0
  mem_negative : ∀ x, x ∈ st.negative.keys ↔ D x = -1 ∧ E x = 0
  nodup_positive : st.positive.keys.Nodup
  nodup_negative : st.negative.keys.Nodup

theorem peeling_start (h : Encodes murmurHash3 t D) :
    Peeling murmurHash3 t D { table := t, positive := [], negative := [], nErased := 0 } D where
  partialPeeling := .start
  shape := ⟨rfl, rfl⟩
  encodes := h
  left x := .inl rfl
  mem_positive x := iff_of_false List.not_mem_nil (by omega)
  mem_negative x := iff_of_false List.not_mem_nil (by omega)
  nodup_positive := List.nodup_nil
  nodup_negative := List.nodup_nil

theorem count_of_isPure {e : HashTableEntry} (h : e.isPure murmurHash3 = true) :
    e.count = 1 ∨ e.count = -1 := by
  rw [HashTableEntry.isPure, Bool.and_eq_true, Bool.or_eq_true, beq_iff_eq, beq_iff_eq] at h
  exact h.1

/-- A pure entry with one key in it names that key, and the sign of it. -/
theorem Encodes.pure_entry (hencodes : Encodes murmurHash3 t D) (hb : 0 < t.bucketsPerHash) {j : ℕ}
    {e : HashTableEntry} (he : t.hashTable[j]? = some e) (hpure : e.isPure murmurHash3 = true)
    (hone : ∃! x, x ∈ D.support ∧ Holds murmurHash3 t.numHashes t.bucketsPerHash x j) :
    e.keySum ∈ D.support ∧ Holds murmurHash3 t.numHashes t.bucketsPerHash e.keySum j ∧
      D e.keySum = e.count ∧ (e.count = 1 ∨ e.count = -1) := by
  obtain ⟨x, ⟨hx, hold⟩, hone⟩ := hone
  have hsums := hencodes.sums_of_unique hb he hx hold fun y hy hold' => hone y ⟨hy, hold'⟩
  have hcount := count_of_isPure hpure
  have hDx : e.count = D x := by
    have := congrArg Prod.fst hsums
    simpa [HashTableEntry.sums] using this
  have hkey : e.keySum = x := by
    have := congrArg (fun s : Sums => s.2.1) hsums
    rw [← hDx] at this
    obtain hc | hc := hcount
    · rw [hc, one_zsmul] at this
      exact congrArg XorWord.word this
    · rw [hc, neg_one_zsmul] at this
      exact congrArg XorWord.word this
  rw [hkey]
  exact ⟨hx, hold, hDx.symm, hcount⟩

/-- So does every pure entry, as long as the tests are truthful. -/
theorem PartialPeeling.pure_entry (htrue : Truthful murmurHash3 t D) {u : Iblt} {E : ℕ →₀ ℤ}
    (h : PartialPeeling murmurHash3 t D u E) (hencodes : Encodes murmurHash3 u E)
    (hb : 0 < u.bucketsPerHash) {j : ℕ} {e : HashTableEntry} (he : u.hashTable[j]? = some e)
    (hpure : e.isPure murmurHash3 = true) :
    e.keySum ∈ E.support ∧ Holds murmurHash3 u.numHashes u.bucketsPerHash e.keySum j ∧
      E e.keySum = e.count ∧ (e.count = 1 ∨ e.count = -1) :=
  hencodes.pure_entry hb he hpure ((htrue _ _ h j e he).1 hpure)

theorem shape_of_insert {checked : Bool} {u : Iblt} {plusOrMinus : ℤ} {k : ℕ}
    {v : List HashTableEntry → ValueBytes}
    (h : t._insert checked murmurHash3 plusOrMinus k v = .ok u) : t.SameShape u := by
  obtain ⟨_, -, h⟩ := Loops.bind_eq_ok h
  cases h
  exact ⟨rfl, length_insertLoop t plusOrMinus k v⟩

theorem PartialPeeling.shape {u : Iblt} {E : ℕ →₀ ℤ} (h : PartialPeeling murmurHash3 t D u E) :
    t.SameShape u := by
  induction h with
  | start => exact ⟨rfl, rfl⟩
  | peel _ _ _ _ _ hinsert ih => exact ih.trans (shape_of_insert hinsert)

/-- One entry of the scan. -/
theorem Peeling.peelAt (htrue : Truthful murmurHash3 t D) (hb : 0 < t.bucketsPerHash)
    {st : Peeled} {E : ℕ →₀ ℤ} (h : Peeling murmurHash3 t D st E) (j : ℕ) :
    ∃ st' E', Iblt.peelAt false murmurHash3 st j = .ok st' ∧ Peeling murmurHash3 t D st' E' ∧
      st'.nErased + E'.support.card = st.nErased + E.support.card := by
  unfold Iblt.peelAt
  split
  · exact ⟨st, E, rfl, h, rfl⟩
  · next e he =>
      split
      · next hpure =>
          obtain ⟨hmem, hold, hE, hcount⟩ := h.partialPeeling.pure_entry htrue h.encodes
            (h.shape.bucketsPerHash ▸ hb) he hpure
          have hsign : -e.count = 1 ∨ -e.count = -1 := by omega
          obtain ⟨u, hu, hshape, hencodes⟩ := h.encodes.insert (h.shape.bucketsPerHash ▸ hb) _ hsign
            e.keySum (valueSumAt j)
          have herase : E + Finsupp.single e.keySum (-e.count) = E.erase e.keySum := by
            rw [Finsupp.single_neg, ← hE, ← sub_eq_add_neg, Finsupp.erase_eq_sub_single]
          have hD : D e.keySum = e.count := by
            have hne := Finsupp.mem_support_iff.mp hmem
            obtain heq | ⟨hzero, -⟩ := h.left e.keySum
            · rw [← heq, hE]
            · exact absurd hzero hne
          rw [hu]
          refine ⟨_, E.erase e.keySum, rfl, ?_, ?_⟩
          · constructor
            case partialPeeling => exact .peel h.partialPeeling he hpure hmem hold hu
            case shape => exact h.shape.trans hshape
            case encodes => exact herase ▸ hencodes
            case left =>
              intro x
              by_cases hx : x = e.keySum
              · subst hx
                exact .inr ⟨Finsupp.erase_same, hD ▸ hcount⟩
              · rw [Finsupp.erase_ne hx]
                exact h.left x
            case mem_positive =>
              intro x
              dsimp only
              rw [Listing.mem_keys_ite, h.mem_positive]
              by_cases hx : x = e.keySum
              · subst hx
                rw [Finsupp.erase_same, hD]
                tauto
              · rw [Finsupp.erase_ne hx, or_iff_right fun h => hx h.2]
            case mem_negative =>
              intro x
              dsimp only
              rw [← ite_not, Listing.mem_keys_ite, h.mem_negative]
              by_cases hx : x = e.keySum
              · subst hx
                rw [Finsupp.erase_same, hD]
                omega
              · rw [Finsupp.erase_ne hx, or_iff_right fun h => hx h.2]
            case nodup_positive => exact Listing.nodup_keys_ite h.nodup_positive fun hkey =>
              Finsupp.mem_support_iff.mp hmem ((h.mem_positive _).mp hkey).2
            case nodup_negative =>
              dsimp only
              rw [← ite_not]
              exact Listing.nodup_keys_ite h.nodup_negative fun hkey =>
                Finsupp.mem_support_iff.mp hmem ((h.mem_negative _).mp hkey).2
          · have hcard := Finset.card_erase_of_mem hmem
            have hpos := Finset.card_pos.mpr ⟨_, hmem⟩
            rw [Finsupp.support_erase]
            dsimp only
            omega
      · exact ⟨st, E, rfl, h, rfl⟩

/-- One pass. -/
theorem Peeling.scan (htrue : Truthful murmurHash3 t D) (hb : 0 < t.bucketsPerHash)
    {st : Peeled} {E : ℕ →₀ ℤ} (h : Peeling murmurHash3 t D st E) :
    ∃ st' E', Iblt.scan false murmurHash3 st = .ok st' ∧ Peeling murmurHash3 t D st' E' ∧
      st'.nErased + E'.support.card = E.support.card := by
  have hgen : ∀ (l : List ℕ) (st : Peeled) (E : ℕ →₀ ℤ), Peeling murmurHash3 t D st E →
      ∃ st' E', l.foldlM (Iblt.peelAt false murmurHash3) st = .ok st' ∧
        Peeling murmurHash3 t D st' E' ∧
        st'.nErased + E'.support.card = st.nErased + E.support.card := by
    intro l
    induction l with
    | nil => exact fun st E h => ⟨st, E, rfl, h, rfl⟩
    | cons j l ih =>
        intro st E h
        obtain ⟨st₁, E₁, hst₁, h₁, hcard₁⟩ := h.peelAt htrue hb j
        obtain ⟨st', E', hst', h', hcard'⟩ := ih st₁ E₁ h₁
        refine ⟨st', E', ?_, h', hcard'.trans hcard₁⟩
        rw [List.foldlM_cons, hst₁]
        exact hst'
  obtain ⟨st', E', hst', h', hcard⟩ := hgen _ { st with nErased := 0 } E
    ⟨h.partialPeeling, h.shape, h.encodes, h.left, h.mem_positive, h.mem_negative,
      h.nodup_positive, h.nodup_negative⟩
  exact ⟨st', E', hst', h', hcard.trans (Nat.zero_add _)⟩

/-- **The loop ends**: each pass but the last lists a key. -/
theorem Peeling.peel (htrue : Truthful murmurHash3 t D) (hb : 0 < t.bucketsPerHash) (rounds : ℕ)
    {st : Peeled} {E : ℕ →₀ ℤ} (h : Peeling murmurHash3 t D st E) :
    (Iblt.peel false murmurHash3 rounds st = .error .rounds ∧ rounds ≤ E.support.card) ∨
      ∃ st' E', Iblt.peel false murmurHash3 rounds st = .ok st' ∧ Peeling murmurHash3 t D st' E' := by
  induction rounds generalizing st E with
  | zero => exact .inl ⟨rfl, Nat.zero_le _⟩
  | succ rounds ih =>
      obtain ⟨st₁, E₁, hst₁, h₁, hcard⟩ := h.scan htrue hb
      rw [Iblt.peel, hst₁]
      change (if st₁.nErased = 0 then Except.ok st₁
        else Iblt.peel false murmurHash3 rounds st₁) = _ ∧ _ ∨ ∃ st' E', (if st₁.nErased = 0 then
          Except.ok st₁ else Iblt.peel false murmurHash3 rounds st₁) = _ ∧ _
      split
      · exact .inr ⟨st₁, E₁, rfl, h₁⟩
      · next hne => exact (ih h₁).imp_left fun ⟨hrun, hle⟩ => ⟨hrun, by omega⟩

/-! ## what is left -/

section Passes

variable {checked : Bool}

/-- No entry is pure. -/
def Idle (murmurHash3 : Nat → Nat → Nat) (t : Iblt) : Prop :=
  ∀ e ∈ t.hashTable, e.isPure murmurHash3 = false

instance : Decidable (Idle murmurHash3 t) := inferInstanceAs (Decidable (∀ e ∈ t.hashTable, _))

/-- There is nothing for a pass to do. -/
theorem scan_of_idle {st : Peeled} (h : Idle murmurHash3 st.table) :
    Iblt.scan checked murmurHash3 st = .ok { st with nErased := 0 } := by
  refine Loops.foldlM_fixed (fun i => ?_) _
  unfold Iblt.peelAt
  dsimp only
  split
  · rfl
  · next e he => rw [if_neg (Bool.eq_false_iff.mp (h e (List.mem_of_getElem? he)))]

/-- An entry that is listed counts. -/
theorem peelAt_cases {st st' : Peeled} {j : ℕ} (h : Iblt.peelAt checked murmurHash3 st j = .ok st') :
    (∀ e, st.table.hashTable[j]? = some e → e.isPure murmurHash3 = false) ∧ st' = st ∨
      st'.nErased = st.nErased + 1 := by
  unfold Iblt.peelAt at h
  split at h
  · next hnone =>
      refine .inl ⟨fun e he => ?_, (Except.ok.inj h).symm⟩
      rw [hnone] at he
      cases he
  · next e he =>
      split at h
      · obtain ⟨u, -, h⟩ := Loops.bind_eq_ok h
        rw [← Except.ok.inj h]
        exact .inr rfl
      · next hpure =>
          refine .inl ⟨fun e' he' => ?_, (Except.ok.inj h).symm⟩
          obtain rfl := Option.some.inj (he.symm.trans he')
          exact Bool.eq_false_iff.mpr hpure

/-- **A pass that lists nothing** has seen no pure entry, and leaves the table
as it is. -/
theorem scan_cases {st st' : Peeled} (h : Iblt.scan checked murmurHash3 st = .ok st') :
    0 < st'.nErased ∨ st' = { st with nErased := 0 } ∧ Idle murmurHash3 st.table := by
  have hgen : ∀ (l : List ℕ) (u : Peeled), l.foldlM (Iblt.peelAt checked murmurHash3) u = .ok st' →
      u.nErased < st'.nErased ∨ st' = u ∧
        ∀ j ∈ l, ∀ e, u.table.hashTable[j]? = some e → e.isPure murmurHash3 = false := by
    intro l
    induction l with
    | nil => exact fun u h => .inr ⟨(Except.ok.inj h).symm, fun j hj => absurd hj List.not_mem_nil⟩
    | cons j l ih =>
        intro u h
        rw [List.foldlM_cons] at h
        obtain ⟨u₁, hu₁, hrest⟩ := Loops.bind_eq_ok h
        obtain ⟨hpure, rfl⟩ | hmore := peelAt_cases hu₁
        · refine (ih u₁ hrest).imp_right fun ⟨hsame, hall⟩ => ⟨hsame, ?_⟩
          exact List.forall_mem_cons.mpr ⟨hpure, hall⟩
        · obtain hlt | ⟨rfl, -⟩ := ih u₁ hrest <;> exact .inl (by omega)
  refine (hgen _ _ h).imp_right fun ⟨hsame, hall⟩ => ⟨hsame, fun e he => ?_⟩
  obtain ⟨j, hj, rfl⟩ := List.mem_iff_getElem.mp he
  exact hall j (List.mem_range.mpr hj) _ (List.getElem?_eq_getElem hj)

/-- **No pure entry is left** in the end. -/
theorem idle_of_peel {rounds : ℕ} {st st' : Peeled}
    (h : Iblt.peel checked murmurHash3 rounds st = .ok st') : Idle murmurHash3 st'.table := by
  induction rounds generalizing st with
  | zero => cases h
  | succ rounds ih =>
      obtain ⟨st₁, hscan, h⟩ := Loops.bind_eq_ok h
      split at h
      · next hzero =>
          obtain rfl := Except.ok.inj h
          obtain hpos | ⟨rfl, hall⟩ := scan_cases hscan
          · omega
          · exact hall
      · exact ih h

end Passes

/-! ## what is listed -/

/-- What a listing says of the keys `D`: `E` are the keys it leaves. -/
structure Lists (D : ℕ →₀ ℤ) (ok : Bool) (positive negative : Listing) (E : ℕ →₀ ℤ) : Prop where
  left : ∀ x, E x = D x ∨ E x = 0 ∧ (D x = 1 ∨ D x = -1)
  mem_positive : ∀ x, x ∈ positive.keys ↔ D x = 1 ∧ E x = 0
  mem_negative : ∀ x, x ∈ negative.keys ↔ D x = -1 ∧ E x = 0
  nodup_positive : positive.keys.Nodup
  nodup_negative : negative.keys.Nodup
  /-- Success means that nothing is left. -/
  eq_zero : ok = true → E = 0

/-- **What the loop has listed** in the end. -/
theorem Peeling.lists (hk : 0 < t.numHashes) (hb : 0 < t.bucketsPerHash)
    (htrue : Truthful murmurHash3 t D) {st : Peeled} {E : ℕ →₀ ℤ} (h : Peeling murmurHash3 t D st E) :
    Lists D ((st.table.hashTable.take (st.table.hashTable.length / t.numHashes)).all
      HashTableEntry.empty) st.positive st.negative E := by
  refine ⟨h.left, h.mem_positive, h.mem_negative, h.nodup_positive, h.nodup_negative,
    fun hempty => ?_⟩
  by_contra hne
  obtain ⟨x, hx⟩ := Finsupp.support_nonempty_iff.mpr hne
  obtain ⟨j, hj, hold⟩ := exists_holds_lt murmurHash3
    (h.shape.numHashes ▸ hk) (h.shape.bucketsPerHash ▸ hb) x
  have hlt : j < st.table.hashTable.length := hj.trans_le (Nat.div_le_self _ _)
  have hget : st.table.hashTable[j]? = some st.table.hashTable[j] := List.getElem?_eq_getElem hlt
  have hmem : st.table.hashTable[j] ∈
      st.table.hashTable.take (st.table.hashTable.length / t.numHashes) := by
    refine List.mem_of_getElem? (i := j) ?_
    rw [List.getElem?_take_of_lt, hget]
    rw [← h.shape.numHashes]
    exact hj
  exact (htrue _ _ h.partialPeeling j _ hget).2 (List.all_eq_true.mp hempty _ hmem) x hx hold

/-- **`listEntries`** lists keys of the table with their signs, and all of them
if it succeeds; with more rounds than there are keys it returns. -/
theorem listEntries_spec (hk : 0 < t.numHashes) (hb : 0 < t.bucketsPerHash)
    (h : Encodes murmurHash3 t D) (htrue : Truthful murmurHash3 t D) (rounds : ℕ) :
    (t.listEntries false murmurHash3 rounds [] [] = .error .rounds ∧ rounds ≤ D.support.card) ∨
      ∃ ok positive negative E, t.listEntries false murmurHash3 rounds [] [] =
        .ok (ok, positive, negative) ∧ Lists D ok positive negative E := by
  unfold listEntries
  obtain ⟨hrun, hle⟩ | ⟨st, E, hrun, hst⟩ := (peeling_start h).peel htrue hb rounds
  · rw [hrun]
    exact .inl ⟨rfl, hle⟩
  · rw [hrun]
    exact .inr ⟨_, _, _, E, rfl, hst.lists hk hb htrue⟩

/-! ## tables that show their keys -/

/-- **No keys of this set together** look like one key, or like none. -/
def Clear (murmurHash3 : ℕ → ℕ → ℕ) (K : Finset ℕ) : Prop :=
  ∀ Y ∈ K.powerset, 2 ≤ Y.card → (∑ k ∈ Y, (⟨k⟩ : XorWord)) ≠ 0 ∧
    (Odd Y.card → (∑ k ∈ Y, (⟨murmurHash3 nHashCheck k⟩ : XorWord)).word ≠
      murmurHash3 nHashCheck (∑ k ∈ Y, (⟨k⟩ : XorWord)).word)

instance (K : Finset ℕ) : Decidable (Clear murmurHash3 K) :=
  inferInstanceAs (Decidable (∀ Y ∈ K.powerset, _))

/-- The values of a set of ids, each counted once. -/
def Signed (D : ℕ →₀ ℤ) : Prop := ∀ x ∈ D.support, D x = 1 ∨ D x = -1

theorem Signed.erase (h : Signed D) (x : ℕ) : Signed (D.erase x) := by
  intro y hy
  rw [Finsupp.support_erase, Finset.mem_erase] at hy
  rw [Finsupp.erase_ne hy.1]
  exact h y hy.2

theorem clear_singleton (x : ℕ) : Clear murmurHash3 {x} := by
  intro Y hY hcard
  have hle := Finset.card_le_card (Finset.mem_powerset.mp hY)
  rw [Finset.card_singleton] at hle
  omega

theorem zsmul_sign {c : ℤ} (hc : c = 1 ∨ c = -1) (w : XorWord) : c • w = w := by
  obtain rfl | rfl := hc
  · exact one_zsmul w
  · rw [neg_one_zsmul, XorWord.neg_eq]

/-- The sums of signed keys: the signs count, and the words do not see them. -/
theorem sum_keys (Y : Finset ℕ) (h : ∀ k ∈ Y, D k = 1 ∨ D k = -1) :
    ∑ k ∈ Y, D k • ((1, ⟨k⟩, ⟨murmurHash3 nHashCheck k⟩) : Sums) =
      (∑ k ∈ Y, D k, ∑ k ∈ Y, ⟨k⟩, ∑ k ∈ Y, ⟨murmurHash3 nHashCheck k⟩) := by
  refine Prod.ext ?_ (Prod.ext ?_ ?_)
  · rw [Prod.fst_sum]
    exact Finset.sum_congr rfl fun k _ => mul_one (D k)
  · rw [Prod.snd_sum, Prod.fst_sum]
    exact Finset.sum_congr rfl fun k hk => zsmul_sign (h k hk) _
  · rw [Prod.snd_sum, Prod.snd_sum]
    exact Finset.sum_congr rfl fun k hk => zsmul_sign (h k hk) _

theorem sum_signs_mod_two (Y : Finset ℕ) (h : ∀ k ∈ Y, D k = 1 ∨ D k = -1) :
    (∑ k ∈ Y, D k) % 2 = (Y.card : ℤ) % 2 := by
  rw [Finset.sum_int_mod, Finset.sum_congr rfl (g := fun _ => (1 : ℤ))]
  · simp
  · intro k hk
    obtain hk | hk := h k hk <;> rw [hk] <;> rfl

/-- **The tests of an entry** of such a table. -/
theorem Encodes.tests_of_clear {K : Finset ℕ} (hclear : Clear murmurHash3 K) (hsub : D.support ⊆ K)
    (hsigned : Signed D) (h : Encodes murmurHash3 t D) (hb : 0 < t.bucketsPerHash) {j : ℕ}
    {e : HashTableEntry} (he : t.hashTable[j]? = some e) :
    (e.isPure murmurHash3 = true →
      ∃! x, x ∈ D.support ∧ Holds murmurHash3 t.numHashes t.bucketsPerHash x j) ∧
    (e.empty = true →
      ∀ x ∈ D.support, ¬ Holds murmurHash3 t.numHashes t.bucketsPerHash x j) := by
  classical
  set Y := D.support.filter fun x => Holds murmurHash3 t.numHashes t.bucketsPerHash x j with hY
  have hmem : ∀ x, x ∈ Y ↔
      x ∈ D.support ∧ Holds murmurHash3 t.numHashes t.bucketsPerHash x j := fun x =>
    Finset.mem_filter
  have hsigns : ∀ x ∈ Y, D x = 1 ∨ D x = -1 := fun x hx => hsigned x ((hmem x).mp hx).1
  have hsums : e.sums =
      (∑ k ∈ Y, D k, ∑ k ∈ Y, ⟨k⟩, ∑ k ∈ Y, ⟨murmurHash3 nHashCheck k⟩) := by
    rw [← sum_keys Y hsigns, h.sums_eq he, hY, Finset.sum_filter]
    refine Finset.sum_congr rfl fun k _ => ?_
    rw [cell_apply hb]
    split
    · rfl
    · exact smul_zero _
  have hcount : e.count = ∑ k ∈ Y, D k := congrArg Prod.fst hsums
  have hkey : e.keySum = (∑ k ∈ Y, (⟨k⟩ : XorWord)).word :=
    congrArg (fun s : Sums => s.2.1.word) hsums
  have hcheck : e.keyCheck = (∑ k ∈ Y, (⟨murmurHash3 nHashCheck k⟩ : XorWord)).word :=
    congrArg (fun s : Sums => s.2.2.word) hsums
  have hmod := sum_signs_mod_two Y hsigns
  rw [← hcount] at hmod
  have hmany : 2 ≤ Y.card → e.isPure murmurHash3 = false ∧ e.empty = false := by
    intro htwo
    have hYK : Y ∈ K.powerset :=
      Finset.mem_powerset.mpr ((Finset.filter_subset _ _).trans hsub)
    obtain ⟨hne, hodd⟩ := hclear Y hYK htwo
    refine ⟨Bool.eq_false_iff.mpr fun hpure => ?_, Bool.eq_false_iff.mpr fun hempty => hne ?_⟩
    · have hone := count_of_isPure hpure
      rw [HashTableEntry.isPure, Bool.and_eq_true, beq_iff_eq, hkey, hcheck] at hpure
      refine hodd (Nat.odd_iff.mpr ?_) hpure.2
      omega
    · have hzero := (HashTableEntry.empty_iff e).mp hempty
      exact congrArg (fun s : Sums => s.2.1) (hsums.symm.trans hzero)
  constructor
  · intro hpure
    have hone := count_of_isPure hpure
    have hcard : Y.card = 1 := by
      by_contra hne
      by_cases htwo : 2 ≤ Y.card
      · exact absurd hpure (Bool.eq_false_iff.mp (hmany htwo).1)
      · have hzero : Y.card = 0 := by omega
        rw [hzero] at hmod
        omega
    obtain ⟨x, hx⟩ := Finset.card_eq_one.mp hcard
    refine ⟨x, (hmem x).mp (hx ▸ Finset.mem_singleton_self x), fun y hy => ?_⟩
    exact Finset.mem_singleton.mp (hx ▸ (hmem y).mpr hy)
  · intro hempty x hx hold
    have hxY : x ∈ Y := (hmem x).mpr ⟨hx, hold⟩
    have hpos := Finset.card_pos.mpr ⟨x, hxY⟩
    by_cases htwo : 2 ≤ Y.card
    · exact absurd hempty (Bool.eq_false_iff.mp (hmany htwo).2)
    · have hzero : e.count = 0 := congrArg Prod.fst ((HashTableEntry.empty_iff e).mp hempty)
      have hcard : Y.card = 1 := by omega
      rw [hcard] at hmod
      omega

/-- **The tests never err on a signed table** whose keys are clear. -/
theorem truthful_of_clear {K : Finset ℕ} (hclear : Clear murmurHash3 K) (hsub : D.support ⊆ K)
    (hsigned : Signed D) (h : Encodes murmurHash3 t D) (hb : 0 < t.bucketsPerHash) :
    Truthful murmurHash3 t D := by
  have hpeeled : ∀ u E, PartialPeeling murmurHash3 t D u E →
      SameShape t u ∧ E.support ⊆ K ∧ Signed E ∧ Encodes murmurHash3 u E := by
    intro u E hpp
    induction hpp with
    | start => exact ⟨⟨rfl, rfl⟩, hsub, hsigned, h⟩
    | @peel u u' E j y e _ he hpure hy hold hu' ih =>
        obtain ⟨hshape, hsubE, hsignedE, hencodes⟩ := ih
        have hb' : 0 < u.bucketsPerHash := hshape.bucketsPerHash ▸ hb
        have hone := (hencodes.tests_of_clear hclear hsubE hsignedE hb' he).1 hpure
        obtain ⟨hmem, hholds, hE, hcount⟩ := hencodes.pure_entry hb' he hpure hone
        obtain rfl : y = e.keySum := hone.unique ⟨hy, hold⟩ ⟨hmem, hholds⟩
        have hsign : -e.count = 1 ∨ -e.count = -1 := by omega
        obtain ⟨v, hv, hshape', hencodes'⟩ := hencodes.insert hb' _ hsign e.keySum (valueSumAt j)
        rw [hv, Except.ok.injEq] at hu'
        subst hu'
        have herase : E + Finsupp.single e.keySum (-e.count) = E.erase e.keySum := by
          rw [Finsupp.single_neg, ← hE, ← sub_eq_add_neg, Finsupp.erase_eq_sub_single]
        refine ⟨hshape.trans hshape', ?_, hsignedE.erase _, herase ▸ hencodes'⟩
        rw [Finsupp.support_erase]
        exact (Finset.erase_subset _ _).trans hsubE
  intro u E hpp j e he
  obtain ⟨hshape, hsubE, hsignedE, hencodes⟩ := hpeeled u E hpp
  exact hencodes.tests_of_clear hclear hsubE hsignedE (hshape.bucketsPerHash ▸ hb) he

/-- A table of one key at most is always clear. -/
theorem truthful_single {x : ℕ} {c : ℤ} (hc : c = 1 ∨ c = 0)
    (h : Encodes murmurHash3 t (Finsupp.single x c)) (hb : 0 < t.bucketsPerHash) :
    Truthful murmurHash3 t (Finsupp.single x c) := by
  refine truthful_of_clear (clear_singleton x) Finsupp.support_single_subset (fun y hy => ?_) h hb
  obtain rfl := Finset.mem_singleton.mp (Finsupp.support_single_subset hy)
  rw [Finsupp.single_eq_same]
  refine hc.imp_right fun hzero => ?_
  rw [hzero, Finsupp.single_zero, Finsupp.support_zero] at hy
  exact absurd hy (Finset.notMem_empty _)

end Iblt

end GhostDag
