import GhostDag.Graphene.Peeling

/-!
# GhostDag.Graphene.TakingOut

What `IBLT::listEntries` makes of a table that need not stand for anything.

A key can be taken out of a table if an entry shows it: the entry looks like
one with that key alone.  `TakenOut` is what can be taken out in any order, and
says nothing of the loop.  If no key ever shows again once it has been taken
out (`NoReturn`), the loop lists one new key in each pass but the last, and
ends (`exists_listEntries`).
-/

namespace GhostDag

namespace Iblt

variable {murmurHash3 : ℕ → ℕ → ℕ} {numHashes buckets : ℕ} {s : ℕ → Sums} {T : ℕ →₀ ℤ} {t : Iblt}

/-! ## showing a key -/

/-- The sums of an entry that holds the key alone, with a sign. -/
def Shows (murmurHash3 : ℕ → ℕ → ℕ) (e : Sums) (x : ℕ) (c : ℤ) : Prop :=
  (c = 1 ∨ c = -1) ∧ e = (c, ⟨x⟩, ⟨murmurHash3 nHashCheck x⟩)

/-- **`isPure`** is that an entry shows its key. -/
theorem isPure_iff {e : HashTableEntry} :
    e.isPure murmurHash3 = true ↔ Shows murmurHash3 e.sums e.keySum e.count := by
  rw [HashTableEntry.isPure, Bool.and_eq_true, Bool.or_eq_true, beq_iff_eq, beq_iff_eq, beq_iff_eq,
    Shows, HashTableEntry.sums]
  simp

/-- An entry that shows a key has it for its own. -/
theorem Shows.isPure {e : HashTableEntry} {x : ℕ} {c : ℤ} (h : Shows murmurHash3 e.sums x c) :
    e.isPure murmurHash3 = true ∧ e.keySum = x ∧ e.count = c := by
  obtain ⟨hsign, hsums⟩ := h
  have hcount : e.count = c := congrArg Prod.fst hsums
  have hkey : e.keySum = x := congrArg (fun s : Sums => s.2.1.word) hsums
  exact ⟨isPure_iff.mpr ⟨hcount ▸ hsign, by rw [hsums, hcount, hkey]⟩, hkey, hcount⟩

/-- What is left of a table when keys have been taken out of all their
entries. -/
noncomputable def left (murmurHash3 : ℕ → ℕ → ℕ) (numHashes buckets : ℕ) (s : ℕ → Sums)
    (T : ℕ →₀ ℤ) : ℕ → Sums :=
  s - Finsupp.linearCombination ℤ (cell murmurHash3 numHashes buckets) T

/-- What can be taken out of a table, one key after the other, each shown by
an entry of what was left before. -/
inductive TakenOut (murmurHash3 : ℕ → ℕ → ℕ) (numHashes buckets : ℕ) (s : ℕ → Sums) :
    (ℕ →₀ ℤ) → Prop
  | nothing : TakenOut murmurHash3 numHashes buckets s 0
  | key {T : ℕ →₀ ℤ} {j x : ℕ} {c : ℤ} : TakenOut murmurHash3 numHashes buckets s T →
      Shows murmurHash3 (left murmurHash3 numHashes buckets s T j) x c →
      TakenOut murmurHash3 numHashes buckets s (T + Finsupp.single x c)

/-- **No key shows again** once it has been taken out. -/
def NoReturn (murmurHash3 : ℕ → ℕ → ℕ) (numHashes buckets : ℕ) (s : ℕ → Sums) : Prop :=
  ∀ T, TakenOut murmurHash3 numHashes buckets s T →
    ∀ j x c, Shows murmurHash3 (left murmurHash3 numHashes buckets s T j) x c → T x = 0

theorem left_add_single (x : ℕ) (c : ℤ) :
    left murmurHash3 numHashes buckets s (T + Finsupp.single x c) =
      left murmurHash3 numHashes buckets s T - c • cell murmurHash3 numHashes buckets x := by
  rw [left, left, map_add, Finsupp.linearCombination_single, sub_sub]

/-- A signed key. -/
theorem smul_key {c : ℤ} (hc : c = 1 ∨ c = -1) (x : ℕ) :
    c • ((1, ⟨x⟩, ⟨murmurHash3 nHashCheck x⟩) : Sums) = (c, ⟨x⟩, ⟨murmurHash3 nHashCheck x⟩) := by
  obtain rfl | rfl := hc
  · exact one_zsmul _
  · exact neg_one_zsmul _

/-! ## finitely many keys -/

/-- **The invariant of the loop**: what is listed has been taken out of the
table. -/
structure Taking (murmurHash3 : ℕ → ℕ → ℕ) (t : Iblt) (st : Peeled) (T : ℕ →₀ ℤ) : Prop where
  takenOut : TakenOut murmurHash3 t.numHashes t.bucketsPerHash (tableSums t.hashTable) T
  shape : SameShape t st.table
  sums : tableSums st.table.hashTable =
    left murmurHash3 t.numHashes t.bucketsPerHash (tableSums t.hashTable) T
  sign : ∀ x, T x = 0 ∨ T x = 1 ∨ T x = -1
  mem_positive : ∀ x, x ∈ st.positive.keys ↔ T x = 1
  mem_negative : ∀ x, x ∈ st.negative.keys ↔ T x = -1

namespace Taking

variable {st : Peeled}

/-- One entry of the scan. -/
theorem peelAt (hfree : NoReturn murmurHash3 t.numHashes t.bucketsPerHash (tableSums t.hashTable))
    (hb : 0 < t.bucketsPerHash) (h : Taking murmurHash3 t st T) (j : ℕ) :
    ∃ st' T', Iblt.peelAt false murmurHash3 st j = .ok st' ∧ Taking murmurHash3 t st' T' ∧
      st'.nErased + T.support.card = st.nErased + T'.support.card := by
  unfold Iblt.peelAt
  split
  · exact ⟨st, T, rfl, h, rfl⟩
  · next e he =>
      split
      · next hpure =>
          have hshows := isPure_iff.mp hpure
          have hsums : e.sums = left murmurHash3 t.numHashes t.bucketsPerHash
              (tableSums t.hashTable) T j := by
            rw [← h.sums, tableSums_of_getElem? he]
          rw [hsums] at hshows
          have hnew := hfree T h.takenOut j _ _ hshows
          have hcount := hshows.1
          have hne : e.count ≠ 0 := by omega
          have hsame : (T + Finsupp.single e.keySum e.count) e.keySum = e.count := by
            rw [Finsupp.add_apply, hnew, Finsupp.single_eq_same, zero_add]
          have hother : ∀ x ≠ e.keySum, (T + Finsupp.single e.keySum e.count) x = T x := by
            intro x hx
            rw [Finsupp.add_apply, Finsupp.single_eq_of_ne hx, add_zero]
          refine ⟨_, T + Finsupp.single e.keySum e.count, rfl, ?_, ?_⟩
          · constructor
            case takenOut => exact h.takenOut.key hshows
            case shape => exact h.shape.trans ⟨rfl, length_insertLoop st.table _ _ _⟩
            case sums =>
              rw [left_add_single, ← h.sums, tableSums_insertLoop (h.shape.bucketsPerHash ▸ hb)
                (by omega), h.shape.numHashes, h.shape.bucketsPerHash, neg_smul, sub_eq_add_neg]
            case sign =>
              intro x
              by_cases hx : x = e.keySum
              · rw [hx, hsame]
                exact .inr hcount
              · rw [hother x hx]
                exact h.sign x
            case mem_positive =>
              intro x
              dsimp only
              rw [Listing.mem_keys_ite, h.mem_positive]
              by_cases hx : x = e.keySum
              · subst hx
                rw [hsame, hnew]
                omega
              · rw [hother x hx, or_iff_right fun h => hx h.2]
            case mem_negative =>
              intro x
              dsimp only
              rw [← ite_not, Listing.mem_keys_ite, h.mem_negative]
              by_cases hx : x = e.keySum
              · subst hx
                rw [hsame, hnew]
                omega
              · rw [hother x hx, or_iff_right fun h => hx h.2]
          · have hsupport : (T + Finsupp.single e.keySum e.count).support =
                Insert.insert e.keySum T.support := by
              ext x
              by_cases hx : x = e.keySum
              · simp [hx, hnew, hne]
              · rw [Finsupp.mem_support_iff, hother x hx]
                simp [hx]
            rw [hsupport, Finset.card_insert_of_notMem (Finsupp.notMem_support_iff.mpr hnew)]
            dsimp only
            omega
      · exact ⟨st, T, rfl, h, rfl⟩

/-- One pass. -/
theorem scan (hfree : NoReturn murmurHash3 t.numHashes t.bucketsPerHash (tableSums t.hashTable))
    (hb : 0 < t.bucketsPerHash) (h : Taking murmurHash3 t st T) :
    ∃ st' T', Iblt.scan false murmurHash3 st = .ok st' ∧ Taking murmurHash3 t st' T' ∧
      st'.nErased + T.support.card = T'.support.card := by
  have hgen : ∀ (l : List ℕ) (st : Peeled) (T : ℕ →₀ ℤ), Taking murmurHash3 t st T →
      ∃ st' T', l.foldlM (Iblt.peelAt false murmurHash3) st = .ok st' ∧
        Taking murmurHash3 t st' T' ∧
        st'.nErased + T.support.card = st.nErased + T'.support.card := by
    intro l
    induction l with
    | nil => exact fun st T h => ⟨st, T, rfl, h, rfl⟩
    | cons j l ih =>
        intro st T h
        obtain ⟨st₁, T₁, hst₁, h₁, hcard₁⟩ := h.peelAt hfree hb j
        obtain ⟨st', T', hst', h', hcard'⟩ := ih st₁ T₁ h₁
        refine ⟨st', T', ?_, h', by omega⟩
        rw [List.foldlM_cons, hst₁]
        exact hst'
  obtain ⟨st', T', hst', h', hcard⟩ := hgen _ { st with nErased := 0 } T
    ⟨h.takenOut, h.shape, h.sums, h.sign, h.mem_positive, h.mem_negative⟩
  exact ⟨st', T', hst', h', hcard.trans (Nat.zero_add _)⟩

/-- **The loop ends**: each pass but the last takes out a key that has not been
taken out before. -/
theorem peel (hfree : NoReturn murmurHash3 t.numHashes t.bucketsPerHash (tableSums t.hashTable))
    (hb : 0 < t.bucketsPerHash) {bound : ℕ}
    (hbound : ∀ T, TakenOut murmurHash3 t.numHashes t.bucketsPerHash (tableSums t.hashTable) T →
      T.support.card ≤ bound) {rounds : ℕ} (h : Taking murmurHash3 t st T)
    (hrounds : bound < rounds + T.support.card) :
    ∃ st' T', Iblt.peel false murmurHash3 rounds st = .ok st' ∧ Taking murmurHash3 t st' T' := by
  induction rounds generalizing st T with
  | zero =>
      have := hbound T h.takenOut
      omega
  | succ rounds ih =>
      obtain ⟨st₁, T₁, hst₁, h₁, hcard⟩ := h.scan hfree hb
      rw [Iblt.peel, hst₁]
      change ∃ st' T', (if st₁.nErased = 0 then Except.ok st₁
        else Iblt.peel false murmurHash3 rounds st₁) = _ ∧ _
      split
      · exact ⟨st₁, T₁, rfl, h₁⟩
      · exact ih h₁ (by omega)

end Taking

/-- The table holds one key alone, in some of its entries but not in all. -/
structure Torn (murmurHash3 : ℕ → ℕ → ℕ) (t : Iblt) (x : ℕ) (c : ℤ) : Prop where
  sign : c = 1 ∨ c = -1
  alone : ∀ j, tableSums t.hashTable j = 0 ∨
    Holds murmurHash3 t.numHashes t.bucketsPerHash x j ∧
      tableSums t.hashTable j = (c, ⟨x⟩, ⟨murmurHash3 nHashCheck x⟩)
  there : ∃ j, tableSums t.hashTable j = (c, ⟨x⟩, ⟨murmurHash3 nHashCheck x⟩)
  lacking : ∃ j, Holds murmurHash3 t.numHashes t.bucketsPerHash x j ∧ tableSums t.hashTable j = 0

namespace Torn

variable {x : ℕ} {c : ℤ}

/-- **Taking the key out** of all its entries puts it, with the other sign,
into those that lacked it. -/
theorem insertLoop (h : Torn murmurHash3 t x c) (hb : 0 < t.bucketsPerHash)
    (v : List HashTableEntry → ValueBytes) :
    Torn murmurHash3 { t with hashTable := t.insertLoop murmurHash3 (-c) x v } x (-c) := by
  classical
  have hsign : -c = 1 ∨ -c = -1 := by
    have := h.sign
    omega
  have hshape : SameShape t { t with hashTable := t.insertLoop murmurHash3 (-c) x v } :=
    ⟨rfl, length_insertLoop t _ _ _⟩
  have hsums : ∀ j, tableSums (t.insertLoop murmurHash3 (-c) x v) j = tableSums t.hashTable j +
      if Holds murmurHash3 t.numHashes t.bucketsPerHash x j then
        (-c, ⟨x⟩, ⟨murmurHash3 nHashCheck x⟩) else 0 := by
    intro j
    rw [tableSums_insertLoop hb hsign, Pi.add_apply, Pi.smul_apply, cell_apply hb]
    split
    · rw [smul_key hsign]
    · rw [smul_zero]
  have hcancel : ((c, ⟨x⟩, ⟨murmurHash3 nHashCheck x⟩) : Sums) +
      (-c, ⟨x⟩, ⟨murmurHash3 nHashCheck x⟩) = 0 := by
    rw [← smul_key h.sign, ← smul_key hsign, neg_smul, add_neg_cancel]
  constructor
  case sign => exact hsign
  case alone =>
    intro j
    rw [hshape.bucketsPerHash, hshape.numHashes, hsums]
    obtain hzero | ⟨hold, hkey⟩ := h.alone j
    · rw [hzero, zero_add]
      split
      · next hold => exact .inr ⟨hold, rfl⟩
      · exact .inl rfl
    · rw [if_pos hold, hkey, hcancel]
      exact .inl rfl
  case there =>
    obtain ⟨j, hold, hzero⟩ := h.lacking
    exact ⟨j, by rw [hsums, hzero, if_pos hold, zero_add]⟩
  case lacking =>
    obtain ⟨j, hj⟩ := h.there
    have hold : Holds murmurHash3 t.numHashes t.bucketsPerHash x j := by
      obtain hzero | ⟨hold, -⟩ := h.alone j
      · have hc : (0 : ℤ) = c := congrArg Prod.fst (hzero.symm.trans hj)
        have := h.sign
        omega
      · exact hold
    refine ⟨j, ?_, by rw [hsums, hj, if_pos hold, hcancel]⟩
    rw [hshape.bucketsPerHash, hshape.numHashes]
    exact hold

end Torn

end Iblt

end GhostDag
