import GhostDag.Graphene.Protocol
import GhostDag.Lib.LittleEndian

/-!
# GhostDag.Graphene.Bloom

The Bloom filter of the vendored library (`thirdparty/bloom_filter.h`).

A key sets one bit for each salt, and is contained when all of its bits are
set.  Bits are never cleared, so what has been inserted stays in
(`insertAll_spec`).  The salts follow from their number and the seed.

`none` is undefined behaviour: a bit past the end of the table, or a division
by a table size of zero.  `rand`, as a function of the seed and of the number
of earlier calls, is an argument.
-/

namespace GhostDag

/-- What `compute_optimal_parameters` leaves in a `bloom_parameters`. -/
structure BloomParameters where
  numberOfHashes : UInt32
  tableSize : UInt64
  randomSeed : UInt64 := 0xA5A5A5A55A5A5A5A

/-- `bloom_filter`, without the counts of elements. -/
structure Bloom where
  salt : List UInt32
  bitTable : List UInt8
  tableSize : UInt64
  randomSeed : UInt64
  deriving DecidableEq

namespace Bloom

/-- `bits_per_char`. -/
def bitsPerChar : Nat := 8

/-- `bit_mask`. -/
def bitMask : List UInt8 := [0x01, 0x02, 0x04, 0x08, 0x10, 0x20, 0x40, 0x80]

/-! ## salts -/

/-- `predef_salt`. -/
def predefSalt : List UInt32 :=
  [0xAAAAAAAA, 0x55555555, 0x33333333, 0xCCCCCCCC, 0x66666666, 0x99999999, 0xB5B5B5B5, 0x4B4B4B4B,
   0xAA55AA55, 0x55335533, 0x33CC33CC, 0xCC66CC66, 0x66996699, 0x99B599B5, 0xB54BB54B, 0x4BAA4BAA,
   0xAA33AA33, 0x55CC55CC, 0x33663366, 0xCC99CC99, 0x66B566B5, 0x994B994B, 0xB5AAB5AA, 0xAAAAAA33,
   0x555555CC, 0x33333366, 0xCCCCCC99, 0x666666B5, 0x9999994B, 0xB5B5B5AA, 0xFFFFFFFF, 0xFFFF0000,
   0xB823D5EB, 0xC1191CDF, 0xF623AEB3, 0xDB58499F, 0xC8D42E70, 0xB173F616, 0xA91A5967, 0xDA427D63,
   0xB1E8A2EA, 0xF6C0D155, 0x4909FEA3, 0xA68CC6A7, 0xC395E782, 0xA26057EB, 0x0CD5DA28, 0x467C5492,
   0xF15E6982, 0x61C6FAD3, 0x9615E352, 0x6E9E355A, 0x689B563E, 0x0C9831A8, 0x6753C18B, 0xA622689B,
   0x8CA63C47, 0x42CC2884, 0x8E89919B, 0x6EDBD7D3, 0x15B6796C, 0x1D6FDFE4, 0x63FF9092, 0xE7401432,
   0xEFFE9412, 0xAEAEDF79, 0x9F245A31, 0x83C136FC, 0xC3DA4A8C, 0xA5112C8C, 0x5271F491, 0x9A948DAB,
   0xCEE59A8D, 0xB5F525AB, 0x59D13217, 0x24E7C331, 0x697C2103, 0x84B0A460, 0x86156DA9, 0xAEF2AC68,
   0x23243DA5, 0x3F649643, 0x5FA495A8, 0x67710DF8, 0x9A6C499E, 0xDCFB0227, 0x46A43433, 0x1832B07A,
   0xC46AFF3C, 0xB9C8FFF0, 0xC9500467, 0x34431BDF, 0xB652432B, 0xE367F12B, 0x427F4C1B, 0x224C006E,
   0x2E7E5A89, 0x96F99AA5, 0x0BEB452A, 0x2FD87C39, 0x74B2E1FB, 0x222EFD24, 0xF357F60C, 0x440FCB1E,
   0x8BBE030F, 0x6704DC29, 0x1144D12F, 0x948B1355, 0x6D8FD7E9, 0x1C11A014, 0xADD1592F, 0xFB3C712E,
   0xFC77642F, 0xF9C4CE8C, 0x31312FB9, 0x08B0DD79, 0x318FA6E7, 0xC040D23D, 0xC0589AA7, 0x0CA5C075,
   0xF874B172, 0x0CF914D5, 0x784D3280, 0x4E8CFEBC, 0xC569F575, 0xCDB2A091, 0x2CC016B4, 0x5C5F4421]

section Salts

variable (rand : UInt32 → Nat → UInt32) (rounds : Nat)

/-- The seed goes into one of the salts. -/
def seedSalt (randomSeed : UInt64) (salt : List UInt32) (i : Nat) : List UInt32 :=
  salt.modify i (· * salt.getD ((i + 3) % salt.length) 0 + randomSeed.toUInt32)

/-- Further salts are drawn, two calls of `rand` for each, as long as rounds
are left. -/
def drawSalt (rand : Nat → UInt32) (saltCount : Nat) : Nat → Nat → List UInt32 → Option (List UInt32)
  | 0, _, _ => none
  | rounds + 1, calls, salt =>
      if salt.length < saltCount then
        let currentSalt := rand calls * rand (calls + 1)
        drawSalt rand saltCount rounds (calls + 2)
          (if currentSalt = 0 ∨ currentSalt ∈ salt then salt else salt ++ [currentSalt])
      else some salt

/-- `generate_unique_salt`. -/
def generateUniqueSalt (saltCount : UInt32) (randomSeed : UInt64) : Option (List UInt32) :=
  if saltCount.toNat ≤ predefSalt.length then
    some ((List.range saltCount.toNat).foldl (seedSalt randomSeed) (predefSalt.take saltCount.toNat))
  else drawSalt (rand randomSeed.toUInt32) saltCount.toNat rounds 0 predefSalt

/-- The filter of some parameters. -/
def ofParameters (p : BloomParameters) : Option Bloom := do
  let randomSeed := p.randomSeed * 0xA5A5A5A5 + 1
  let salt ← generateUniqueSalt rand rounds p.numberOfHashes randomSeed
  return {
    salt
    bitTable := List.replicate (p.tableSize.toNat / bitsPerChar) 0
    tableSize := p.tableSize
    randomSeed }

/-- The filter of raw serialized data; the seed is the one in use. -/
def ofRaw (tableSize : UInt64) (saltCount : UInt32) (randomSeed : UInt64) (bitTable : List UInt8) :
    Option Bloom := do
  let salt ← generateUniqueSalt rand rounds saltCount randomSeed
  return { salt, bitTable, tableSize, randomSeed }

theorem length_seedSalt (randomSeed : UInt64) (salt : List UInt32) (i : ℕ) :
    (seedSalt randomSeed salt i).length = salt.length := List.length_modify ..

theorem length_drawSalt {rand : ℕ → UInt32} {saltCount rounds calls : ℕ} {salt salt' : List UInt32}
    (hle : salt.length ≤ saltCount) (h : drawSalt rand saltCount rounds calls salt = some salt') :
    salt'.length = saltCount := by
  induction rounds generalizing calls salt with
  | zero => cases h
  | succ rounds ih =>
      rw [drawSalt] at h
      split at h
      · next hlt =>
          refine ih ?_ h
          split
          · exact hle
          · rw [List.length_append]
            exact hlt
      · next hnot => exact Option.some.inj h ▸ le_antisymm hle (not_lt.mp hnot)

/-- There are as many salts as there should be. -/
theorem length_generateUniqueSalt {saltCount : UInt32} {randomSeed : UInt64} {salt : List UInt32}
    (h : generateUniqueSalt rand rounds saltCount randomSeed = some salt) :
    salt.length = saltCount.toNat := by
  unfold generateUniqueSalt at h
  split at h
  · next hle =>
      have hgen : ∀ (l : List ℕ) (salt : List UInt32),
          (l.foldl (seedSalt randomSeed) salt).length = salt.length := by
        intro l
        induction l with
        | nil => exact fun _ => rfl
        | cons i l ih => exact fun salt => (ih _).trans (length_seedSalt randomSeed salt i)
      rw [← Option.some.inj h, hgen, List.length_take, min_eq_left hle]
  · next hnot => exact length_drawSalt (le_of_not_ge hnot) h

/-- Up to 128 of them need no drawing. -/
theorem exists_generateUniqueSalt {saltCount : UInt32} (h : saltCount ≤ 128)
    (randomSeed : UInt64) :
    ∃ salt, generateUniqueSalt rand rounds saltCount randomSeed = some salt := by
  have hle : saltCount.toNat ≤ predefSalt.length := UInt32.le_iff_toNat_le.mp h
  exact ⟨_, if_pos hle⟩

/-- The salts are those that follow from their number and the seed. -/
def Seeded (f : Bloom) : Prop :=
  generateUniqueSalt rand rounds (.ofNat f.salt.length) f.randomSeed = some f.salt

theorem seeded_ofParameters {p : BloomParameters} {f : Bloom}
    (h : ofParameters rand rounds p = some f) : f.Seeded rand rounds := by
  obtain ⟨salt, hsalt, hf⟩ := Option.bind_eq_some_iff.mp h
  obtain rfl := Option.some.inj hf
  unfold Seeded
  rw [length_generateUniqueSalt rand rounds hsalt, UInt32.ofNat_toNat]
  exact hsalt

end Salts

/-! ## keys -/

/-- What a word changes in the hash, the first of two ways. -/
def mixOdd (hash i : UInt32) : UInt32 := (hash <<< 7) ^^^ i * (hash >>> 3)

/-- The second way. -/
def mixEven (hash i : UInt32) : UInt32 := ~~~((hash <<< 11) + (i ^^^ (hash >>> 5)))

/-- The last bytes of a key, less than eight: a word, half a word and a byte. -/
def hashTail (key : List UInt8) (hash : UInt32) : UInt32 :=
  let (key, hash, loop) :=
    if 4 ≤ key.length then
      (key.drop 4, hash ^^^ mixEven hash (LittleEndian.decode key), (1 : UInt32))
    else (key, hash, 0)
  let (key, hash, loop) :=
    if 2 ≤ key.length then
      let i := LittleEndian.decode (key.take 2)
      (key.drop 2, hash ^^^ (if loop = 1 then mixOdd hash i else mixEven hash i), loop + 1)
    else (key, hash, loop)
  match key with
  | [] => hash
  | b :: _ => hash + ((b.toUInt32 ^^^ hash * 0xA5A5A5A5) + loop)

/-- `hash_ap`: two words at a time. -/
def hashAp : List UInt8 → UInt32 → UInt32
  | a :: b :: c :: d :: a' :: b' :: c' :: d' :: key, hash =>
      hashAp key (hash ^^^ (mixOdd hash (LittleEndian.decode [a, b, c, d]) ^^^
        mixEven hash (LittleEndian.decode [a', b', c', d'])))
  | key, hash => hashTail key hash

/-! ## bits -/

/-- `compute_indices`. -/
def computeIndices (f : Bloom) (hash : UInt32) : Option (Nat × Nat) :=
  if f.tableSize = 0 then none
  else
    let bitIndex := hash.toNat % f.tableSize.toNat
    some (bitIndex, bitIndex % bitsPerChar)

/-- Set the bit of a hash. -/
def setBit (f : Bloom) (hash : UInt32) : Option Bloom := do
  let (bitIndex, bit) ← f.computeIndices hash
  if bitIndex / bitsPerChar < f.bitTable.length then
    return { f with
      bitTable := f.bitTable.modify (bitIndex / bitsPerChar) (· ||| bitMask.getD bit 0) }
  else none

/-- Whether the bit of a hash is set. -/
def testBit (f : Bloom) (hash : UInt32) : Option Bool := do
  let (bitIndex, bit) ← f.computeIndices hash
  let cell ← f.bitTable[bitIndex / bitsPerChar]?
  return cell &&& bitMask.getD bit 0 == bitMask.getD bit 0

/-- `insert`. -/
def insert (f : Bloom) (key : List UInt8) : Option Bloom :=
  f.salt.foldlM (fun f salt => f.setBit (hashAp key salt)) f

/-- `contains`, up to the first bit that is not set. -/
def contains (f : Bloom) (key : List UInt8) : Option Bool :=
  f.salt.allM fun salt => f.testBit (hashAp key salt)

/-- A sequence of insertions. -/
def insertAll (f : Bloom) (keys : List (List UInt8)) : Option Bloom := keys.foldlM insert f

/-! ## bits are never cleared -/

/-- The bits of `f` are set in `f'`, and nothing else has changed. -/
structure Grows (f f' : Bloom) : Prop where
  salt : f'.salt = f.salt
  tableSize : f'.tableSize = f.tableSize
  randomSeed : f'.randomSeed = f.randomSeed
  length : f'.bitTable.length = f.bitTable.length
  testBit : ∀ hash, f.testBit hash = some true → f'.testBit hash = some true

variable {f f' f'' : Bloom} {hash : UInt32} {key : List UInt8} {keys : List (List UInt8)}

theorem Grows.refl (f : Bloom) : Grows f f := ⟨rfl, rfl, rfl, rfl, fun _ h => h⟩

theorem Grows.trans (h : Grows f f') (h' : Grows f' f'') : Grows f f'' where
  salt := h'.salt.trans h.salt
  tableSize := h'.tableSize.trans h.tableSize
  randomSeed := h'.randomSeed.trans h.randomSeed
  length := h'.length.trans h.length
  testBit hash ht := h'.testBit hash (h.testBit hash ht)

theorem Grows.seeded {rand : UInt32 → ℕ → UInt32} {rounds : ℕ} (h : Grows f f')
    (hf : f.Seeded rand rounds) : f'.Seeded rand rounds := by
  unfold Seeded at hf ⊢
  rwa [h.salt, h.randomSeed]

theorem testBit_eq_some_true_iff {hash : UInt32} :
    f.testBit hash = some true ↔ ∃ bitIndex bit cell, f.computeIndices hash = some (bitIndex, bit) ∧
      f.bitTable[bitIndex / bitsPerChar]? = some cell ∧
      cell &&& bitMask.getD bit 0 = bitMask.getD bit 0 := by
  unfold testBit
  constructor
  · intro h
    obtain ⟨⟨bitIndex, bit⟩, hindices, hrest⟩ := Option.bind_eq_some_iff.mp h
    obtain ⟨cell, hcell, hmask⟩ := Option.bind_eq_some_iff.mp hrest
    exact ⟨bitIndex, bit, cell, hindices, hcell, beq_iff_eq.mp (Option.some.inj hmask)⟩
  · intro h
    obtain ⟨bitIndex, bit, cell, hindices, hcell, hmask⟩ := h
    refine Option.bind_eq_some_iff.mpr ⟨(bitIndex, bit), hindices, ?_⟩
    refine Option.bind_eq_some_iff.mpr ⟨cell, hcell, ?_⟩
    exact congrArg some (beq_iff_eq.mpr hmask)

/-- A mask stays within a byte that gains bits. -/
theorem or_and_mask {b x m : UInt8} (h : b &&& m = m) : (b ||| x) &&& m = m := by
  refine UInt8.toBitVec_inj.mp (BitVec.eq_of_getLsbD_eq fun i _ => ?_)
  have hi := congrArg (fun c : UInt8 => c.toBitVec.getLsbD i) h
  simp only [UInt8.toBitVec_and, UInt8.toBitVec_or, BitVec.getLsbD_and, BitVec.getLsbD_or] at hi ⊢
  cases hm : m.toBitVec.getLsbD i <;> simp_all

/-- The mask that a byte has gained is within it. -/
theorem or_mask_and (b m : UInt8) : (b ||| m) &&& m = m := by
  rw [UInt8.or_comm]
  exact or_and_mask UInt8.and_self

theorem setBit_spec (h : f.setBit hash = some f') : Grows f f' ∧ f'.testBit hash = some true := by
  obtain ⟨⟨bitIndex, bit⟩, hindices, hrest⟩ := Option.bind_eq_some_iff.mp h
  dsimp only at hrest
  split at hrest
  · next hlt =>
      obtain rfl := Option.some.inj hrest
      refine ⟨⟨rfl, rfl, rfl, List.length_modify .., fun other hother => ?_⟩, ?_⟩
      · obtain ⟨i, bit', cell, hindices', hcell, hmask⟩ := testBit_eq_some_true_iff.mp hother
        by_cases hsame : bitIndex / bitsPerChar = i / bitsPerChar
        · refine testBit_eq_some_true_iff.mpr ⟨i, bit', cell ||| bitMask.getD bit 0, hindices', ?_,
            or_and_mask hmask⟩
          rw [← hsame] at hcell ⊢
          rw [List.getElem?_modify_eq, hcell]
          rfl
        · refine testBit_eq_some_true_iff.mpr ⟨i, bit', cell, hindices', ?_, hmask⟩
          rw [List.getElem?_modify_ne _ _ hsame, hcell]
      · refine testBit_eq_some_true_iff.mpr ⟨bitIndex, bit,
          f.bitTable[bitIndex / bitsPerChar] ||| bitMask.getD bit 0, hindices, ?_, or_mask_and _ _⟩
        rw [List.getElem?_modify_eq, List.getElem?_eq_getElem hlt]
        rfl
  · cases hrest

theorem insert_spec (h : f.insert key = some f') :
    Grows f f' ∧ ∀ salt ∈ f.salt, f'.testBit (hashAp key salt) = some true :=
  Containers.foldlM_reaches (Q := fun salt f => f.testBit (hashAp key salt) = some true)
    Grows.refl Grows.trans setBit_spec (fun hgrows hbit => hgrows.testBit _ hbit) h

/-- A key is contained when the bits of all salts are set. -/
theorem contains_eq_some_true_iff :
    f.contains key = some true ↔ ∀ salt ∈ f.salt, f.testBit (hashAp key salt) = some true := by
  unfold contains
  induction f.salt with
  | nil => exact iff_of_true rfl nofun
  | cons salt l ih =>
      rw [List.allM, List.forall_mem_cons, ← ih]
      cases f.testBit (hashAp key salt) with
      | none => simp
      | some b => cases b <;> simp

theorem Grows.contains (h : Grows f f') (hkey : f.contains key = some true) :
    f'.contains key = some true :=
  contains_eq_some_true_iff.mpr fun salt hsalt =>
    h.testBit _ (contains_eq_some_true_iff.mp hkey salt (h.salt ▸ hsalt))

/-- **What has been inserted is contained**, whatever has been inserted since. -/
theorem insertAll_spec (h : f.insertAll keys = some f') :
    Grows f f' ∧ ∀ key ∈ keys, f'.contains key = some true := by
  refine Containers.foldlM_reaches (Q := fun key f => f.contains key = some true)
    Grows.refl Grows.trans (fun hins => ?_) (fun hgrows hkey => hgrows.contains hkey) h
  obtain ⟨hgrows, hbits⟩ := insert_spec hins
  exact ⟨hgrows, contains_eq_some_true_iff.mpr fun salt hsalt => hbits salt (hgrows.salt ▸ hsalt)⟩

/-! ## tables without a gap -/

/-- There is a bit for each remainder by the table size. -/
structure Usable (f : Bloom) : Prop where
  pos : f.tableSize ≠ 0
  le : f.tableSize.toNat ≤ f.bitTable.length * bitsPerChar

theorem Usable.exists_cell (h : f.Usable) (hash : UInt32) :
    ∃ bitIndex bit, f.computeIndices hash = some (bitIndex, bit) ∧
      bitIndex / bitsPerChar < f.bitTable.length := by
  refine ⟨_, _, if_neg h.pos, Nat.div_lt_of_lt_mul ?_⟩
  have hpos : 0 < f.tableSize.toNat := Nat.pos_of_ne_zero fun h0 => h.pos (UInt64.toNat_inj.mp h0)
  rw [Nat.mul_comm]
  exact (Nat.mod_lt _ hpos).trans_le h.le

theorem Usable.exists_setBit (h : f.Usable) (hash : UInt32) :
    ∃ f', f.setBit hash = some f' ∧ f'.Usable := by
  obtain ⟨bitIndex, bit, hindices, hlt⟩ := h.exists_cell hash
  refine ⟨{ f with bitTable :=
    f.bitTable.modify (bitIndex / bitsPerChar) (· ||| bitMask.getD bit 0) }, ?_, h.pos, ?_⟩
  · refine Option.bind_eq_some_iff.mpr ⟨(bitIndex, bit), hindices, ?_⟩
    exact if_pos hlt
  · dsimp only
    rw [List.length_modify]
    exact h.le

/-- Insertions into such a table stay within it. -/
theorem Usable.exists_insertAll (h : f.Usable) (keys : List (List UInt8)) :
    ∃ f', f.insertAll keys = some f' ∧ f'.Usable :=
  Containers.exists_foldlM (fun key _ _ hf =>
    Containers.exists_foldlM (fun salt _ _ hf => hf.exists_setBit (hashAp key salt)) hf) h

/-- A size in whole bytes, as `compute_optimal_parameters` rounds it, makes
such a table. -/
theorem usable_ofParameters {rand : UInt32 → ℕ → UInt32} {rounds : ℕ} {p : BloomParameters}
    (hpos : p.tableSize ≠ 0) (hdvd : bitsPerChar ∣ p.tableSize.toNat)
    (h : ofParameters rand rounds p = some f) : f.Usable := by
  obtain ⟨salt, -, hf⟩ := Option.bind_eq_some_iff.mp h
  obtain rfl := Option.some.inj hf
  refine ⟨hpos, ?_⟩
  rw [List.length_replicate, Nat.div_mul_cancel hdvd]

end Bloom

end GhostDag
