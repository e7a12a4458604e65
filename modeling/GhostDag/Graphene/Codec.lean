import GhostDag.Graphene.Bloom

/-!
# GhostDag.Graphene.Codec

How Bloom filters and tables travel (`graphene.cc`).

Both become objects of numbers and of strings with hexadecimal digits, and
come back as they were (`deserialize_serialize`).  A filter travels without
its salts: the receiver generates them anew.  Numbers and strings themselves
arrive as they are sent.
-/

namespace GhostDag

/-- What travels of `nlohmann::json`. -/
inductive Json
  | number (n : Int)
  | string (s : String)
  | array (elements : List Json)
  | object (members : List (String × Json))

namespace Json

/-- `operator[]`; there is no element for a key that is not there. -/
def member (key : String) : Json → Option Json
  | .object members => members.lookup key
  | _ => none

/-- `get<uint64_t>`, which casts. -/
def getUInt64 : Json → Option UInt64
  | .number n => some (.ofInt n)
  | _ => none

/-- `get<uint32_t>`. -/
def getUInt32 : Json → Option UInt32
  | .number n => some (.ofInt n)
  | _ => none

/-- `get<int32_t>`. -/
def getInt32 : Json → Option Int32
  | .number n => some (.ofInt n)
  | _ => none

/-- `get<std::string>`. -/
def getString : Json → Option String
  | .string s => some s
  | _ => none

theorem toNat_ofInt64 {n : ℕ} (h : n < 2 ^ 64) : (UInt64.ofInt n).toNat = n := by
  have hmod : (n : ℤ) % 2 ^ 64 = n := Int.emod_eq_of_lt n.cast_nonneg (by exact_mod_cast h)
  rw [UInt64.ofInt, hmod, Int.toNat_natCast]
  exact UInt64.toNat_ofNat_of_lt' h

theorem toNat_ofInt32 {n : ℕ} (h : n < 2 ^ 32) : (UInt32.ofInt n).toNat = n := by
  have hmod : (n : ℤ) % 2 ^ 32 = n := Int.emod_eq_of_lt n.cast_nonneg (by exact_mod_cast h)
  rw [UInt32.ofInt, hmod, Int.toNat_natCast]
  exact UInt32.toNat_ofNat_of_lt' h

/-- What a loop over a value goes through. -/
def elements : Json → List Json
  | .array elements => elements
  | .object members => members.map Prod.snd
  | j => [j]

end Json

namespace GrapheneProtocol

/-! ## hexadecimal digits -/

/-- `hex_chars`. -/
def hexChars : List Char := "0123456789abcdef".toList

/-- The two digits of a byte. -/
def hexDigits (b : UInt8) : List Char :=
  [hexChars.getD (b >>> 4).toNat '0', hexChars.getD (b &&& 0x0f).toNat '0']

/-- `HexEncode`, and the loops like it. -/
def hexEncode (data : List UInt8) : String := .ofList (data.flatMap hexDigits)

/-- `h2`. -/
def h2 (c : Char) : UInt8 :=
  if '0' ≤ c ∧ c ≤ '9' then c.toUInt8 - 48 else 10 + (c.toUInt8 - 97)

/-- The byte of two digits. -/
def hexByte (c d : Char) : UInt8 := h2 c <<< 4 ||| h2 d

/-- The loops that read digits.  After an odd one at the end they read the NUL
behind the string. -/
def hexDecode : List Char → List UInt8
  | c :: d :: hex => hexByte c d :: hexDecode hex
  | [c] => [hexByte c (.ofNat 0)]
  | [] => []

/-- `HexDecodeU64`, which leaves an odd digit out.  A ninth byte would be
shifted out of the word, which is undefined. -/
def hexDecodeU64 (hex : String) : Option Nat :=
  let bytes := hexDecode (hex.toList.take (hex.toList.length / 2 * 2))
  if bytes.length ≤ 8 then some (LittleEndian.ofBytes bytes) else none

theorem h2_hexChars {d : ℕ} (h : d < 16) : h2 (hexChars.getD d '0') = .ofNat d := by
  revert d
  decide

theorem hexByte_hexChars (b : UInt8) :
    hexByte (hexChars.getD (b >>> 4).toNat '0') (hexChars.getD (b &&& 0x0f).toNat '0') = b := by
  have hb := b.toNat_lt
  have hhigh : (b >>> 4).toNat = b.toNat / 2 ^ 4 := by
    rw [UInt8.toNat_shiftRight]
    exact Nat.shiftRight_eq_div_pow b.toNat 4
  have hlow : (b &&& 0x0f).toNat = b.toNat % 2 ^ 4 := by
    rw [UInt8.toNat_and]
    exact Nat.and_two_pow_sub_one_eq_mod b.toNat 4
  have hlt : b.toNat % 2 ^ 4 < 2 ^ 4 := Nat.mod_lt _ (by decide)
  rw [hexByte, hhigh, hlow, h2_hexChars (by omega), h2_hexChars hlt]
  refine UInt8.toNat_inj.mp ?_
  rw [UInt8.toNat_or, UInt8.toNat_shiftLeft, UInt8.toNat_ofNat', UInt8.toNat_ofNat',
    Nat.mod_eq_of_lt (by omega : b.toNat / 2 ^ 4 < 2 ^ 8),
    Nat.mod_eq_of_lt (by omega : b.toNat % 2 ^ 4 < 2 ^ 8)]
  have hshift : b.toNat / 2 ^ 4 * 2 ^ 4 < 2 ^ 8 := by omega
  change (b.toNat / 2 ^ 4) <<< 4 % 2 ^ 8 ||| b.toNat % 2 ^ 4 = b.toNat
  rw [Nat.shiftLeft_eq, Nat.mod_eq_of_lt hshift, ← Nat.shiftLeft_eq,
    ← Nat.shiftLeft_add_eq_or_of_lt hlt, Nat.shiftLeft_eq, Nat.div_add_mod']

/-- Bytes are read back from their digits. -/
theorem hexDecode_hexEncode (data : List UInt8) : hexDecode (hexEncode data).toList = data := by
  rw [hexEncode, String.toList_ofList]
  induction data with
  | nil => rfl
  | cons b data ih =>
      rw [List.flatMap_cons]
      change hexByte _ _ :: hexDecode (data.flatMap hexDigits) = _
      rw [ih, hexByte_hexChars]

theorem length_hexEncode (data : List UInt8) :
    (hexEncode data).toList.length = data.length * 2 := by
  rw [hexEncode, String.toList_ofList]
  induction data with
  | nil => rfl
  | cons b data ih =>
      rw [List.flatMap_cons, List.length_append, ih, List.length_cons, Nat.succ_mul, Nat.add_comm]
      rfl

/-- A word is read back from the digits of its bytes in memory. -/
theorem hexDecodeU64_hexEncode {x : ℕ} (h : x < 2 ^ 64) :
    hexDecodeU64 (hexEncode (u64ToVec x)) = some x := by
  have hlength : (u64ToVec x).length = 8 := List.length_map _ |>.trans List.length_range
  have hall : (hexEncode (u64ToVec x)).toList.take
      ((hexEncode (u64ToVec x)).toList.length / 2 * 2) = (hexEncode (u64ToVec x)).toList := by
    refine List.take_of_length_le ?_
    rw [length_hexEncode, Nat.mul_div_cancel _ Nat.two_pos]
  unfold hexDecodeU64
  dsimp only
  rw [hall, hexDecode_hexEncode, if_pos hlength.le, u64ToVec, LittleEndian.ofBytes_bytes,
    Nat.mod_eq_of_lt h]

/-! ## tables -/

/-- An entry as an object. -/
def serializeEntry (e : HashTableEntry) : Json := .object [
  ("count", .number e.count),
  ("key_sum", .string (hexEncode (u64ToVec e.keySum))),
  ("key_check", .number e.keyCheck),
  ("value_sum", .string (hexEncode e.valueSum))]

/-- `SerializeIBLT`. -/
def serializeIblt (t : Iblt) : Json := .object [
  ("value_size", .number t.valueSize),
  ("num_hashes", .number t.numHashes),
  ("entries", .array (t.hashTable.map serializeEntry))]

/-- An entry from an object. -/
def deserializeEntry (e : Json) : Option HashTableEntry := do
  let count ← (← e.member "count").getInt32
  let keySum ← hexDecodeU64 (← (← e.member "key_sum").getString)
  let keyCheck ← (← e.member "key_check").getUInt32
  let hex ← (← e.member "value_sum").getString
  return {
    count := count.toInt
    keySum
    keyCheck := keyCheck.toNat
    valueSum := hexDecode hex.toList }

/-- `DeserializeIBLT`. -/
def deserializeIblt (j : Json) : Option Iblt := do
  let valueSize ← (← j.member "value_size").getUInt64
  let numHashes ← (← j.member "num_hashes").getUInt64
  let hashTable ← (← j.member "entries").elements.mapM deserializeEntry
  return { valueSize := valueSize.toNat, numHashes := numHashes.toNat, hashTable }

/-- The ranges of the members of an entry. -/
structure InRange (e : HashTableEntry) : Prop where
  count_ge : -2 ^ 31 ≤ e.count
  count_lt : e.count < 2 ^ 31
  keySum : e.keySum < 2 ^ 64
  keyCheck : e.keyCheck < 2 ^ 32

/-- The ranges of the members of a table. -/
structure Storable (t : Iblt) : Prop where
  valueSize : t.valueSize < 2 ^ 64
  numHashes : t.numHashes < 2 ^ 64
  entries : ∀ e ∈ t.hashTable, InRange e

theorem deserializeEntry_serializeEntry {e : HashTableEntry} (h : InRange e) :
    deserializeEntry (serializeEntry e) = some e := by
  have hcount : (Int32.ofInt e.count).toInt = e.count :=
    Int32.toInt_ofInt_of_le h.count_ge h.count_lt
  have hkey := hexDecodeU64_hexEncode h.keySum
  have hcheck : (UInt32.ofInt e.keyCheck).toNat = e.keyCheck := Json.toNat_ofInt32 h.keyCheck
  have hvalue := hexDecode_hexEncode e.valueSum
  calc deserializeEntry (serializeEntry e)
      = (hexDecodeU64 (hexEncode (u64ToVec e.keySum))).bind fun keySum =>
          some ⟨(Int32.ofInt e.count).toInt, keySum, (UInt32.ofInt e.keyCheck).toNat,
            hexDecode (hexEncode e.valueSum).toList⟩ := rfl
    _ = some e := by rw [hkey, hcount, hcheck, hvalue]; rfl

/-- A table is read back. -/
theorem deserializeIblt_serializeIblt {t : Iblt} (h : Storable t) :
    deserializeIblt (serializeIblt t) = some t := by
  have hentries : ∀ l : List HashTableEntry, (∀ e ∈ l, InRange e) →
      (l.map serializeEntry).mapM deserializeEntry = some l := by
    intro l
    induction l with
    | nil => exact fun _ => rfl
    | cons e l ih =>
        intro hl
        obtain ⟨he, hl⟩ := List.forall_mem_cons.mp hl
        rw [List.map_cons, List.mapM_cons, deserializeEntry_serializeEntry he, ih hl]
        rfl
  calc deserializeIblt (serializeIblt t)
      = ((t.hashTable.map serializeEntry).mapM deserializeEntry).bind fun hashTable =>
          some ⟨(UInt64.ofInt t.valueSize).toNat, (UInt64.ofInt t.numHashes).toNat, hashTable⟩ := rfl
    _ = some t := by
        rw [hentries t.hashTable h.entries, Json.toNat_ofInt64 h.valueSize,
          Json.toNat_ofInt64 h.numHashes]
        rfl

/-! ## filters -/

/-- `SerializeBloomFilter`. -/
def serializeBloomFilter (bf : Bloom) : Json := .object [
  ("table_size", .number bf.tableSize.toNat),
  ("salt_count", .number (UInt32.ofNat bf.salt.length).toNat),
  ("random_seed", .number bf.randomSeed.toNat),
  ("bit_table", .string (hexEncode bf.bitTable))]

variable (rand : UInt32 → Nat → UInt32) (rounds : Nat)

/-- `DeserializeBloomFilter`. -/
def deserializeBloomFilter (j : Json) : Option Bloom := do
  let tableSize ← (← j.member "table_size").getUInt64
  let saltCount ← (← j.member "salt_count").getUInt32
  let randomSeed ← (← j.member "random_seed").getUInt64
  let hex ← (← j.member "bit_table").getString
  Bloom.ofRaw rand rounds tableSize saltCount randomSeed (hexDecode hex.toList)

/-- A filter is read back, with salts that follow from what is sent. -/
theorem deserializeBloomFilter_serializeBloomFilter {bf : Bloom} (h : bf.Seeded rand rounds) :
    deserializeBloomFilter rand rounds (serializeBloomFilter bf) = some bf := by
  have hsize : UInt64.ofInt bf.tableSize.toNat = bf.tableSize :=
    UInt64.toNat_inj.mp (Json.toNat_ofInt64 bf.tableSize.toNat_lt)
  have hseed : UInt64.ofInt bf.randomSeed.toNat = bf.randomSeed :=
    UInt64.toNat_inj.mp (Json.toNat_ofInt64 bf.randomSeed.toNat_lt)
  have hcount : UInt32.ofInt (UInt32.ofNat bf.salt.length).toNat = .ofNat bf.salt.length :=
    UInt32.toNat_inj.mp (Json.toNat_ofInt32 (UInt32.toNat_lt _))
  calc deserializeBloomFilter rand rounds (serializeBloomFilter bf)
      = Bloom.ofRaw rand rounds (.ofInt bf.tableSize.toNat)
          (.ofInt (UInt32.ofNat bf.salt.length).toNat) (.ofInt bf.randomSeed.toNat)
          (hexDecode (hexEncode bf.bitTable).toList) := rfl
    _ = some bf := by
        rw [hsize, hseed, hcount, hexDecode_hexEncode]
        exact Option.bind_eq_some_iff.mpr ⟨bf.salt, h, rfl⟩

/-- The question that a filter answers, about ids. -/
def ask (bf : Bloom) (effectiveFpp : ℚ) : BloomFilter where
  contains txId := bf.contains (u64ToVec txId) == some true
  effectiveFpp := effectiveFpp

/-! ## both ways -/

/-- **Nothing is lost on the way.**  A table comes back as it was; a filter of
at most 128 hash functions contains what it contained before, and everything
that has been inserted. -/
theorem deserialize_serialize :
    (∀ t : Iblt, Storable t → deserializeIblt (serializeIblt t) = some t) ∧
      ∀ p : BloomParameters, p.numberOfHashes ≤ 128 →
        ∃ empty, Bloom.ofParameters rand rounds p = some empty ∧
          ∀ keys bf, empty.insertAll keys = some bf →
            ∃ bf', deserializeBloomFilter rand rounds (serializeBloomFilter bf) = some bf' ∧
              (∀ key, bf'.contains key = bf.contains key) ∧
              ∀ key ∈ keys, bf'.contains key = some true := by
  refine ⟨fun t ht => deserializeIblt_serializeIblt ht, fun p hp => ?_⟩
  obtain ⟨salt, hsalt⟩ := Bloom.exists_generateUniqueSalt rand rounds hp
    (p.randomSeed * 0xA5A5A5A5 + 1)
  have hempty : Bloom.ofParameters rand rounds p = some ⟨salt, _, _, _⟩ :=
    Option.bind_eq_some_iff.mpr ⟨salt, hsalt, rfl⟩
  refine ⟨_, hempty, fun keys bf hins => ?_⟩
  obtain ⟨hgrows, hkeys⟩ := Bloom.insertAll_spec hins
  have hseeded := hgrows.seeded (Bloom.seeded_ofParameters rand rounds hempty)
  exact ⟨bf, deserializeBloomFilter_serializeBloomFilter rand rounds hseeded, fun _ => rfl, hkeys⟩

/-! ## two ids -/

/-- Parameters for three hash functions and sixteen bits. -/
def smallParameters : BloomParameters := { numberOfHashes := 3, tableSize := 16 }

/-- A table with an entry of each sign. -/
def signedTable : Iblt where
  valueSize := ibltValueSize
  numHashes := 2
  hashTable := [{ count := 1, keySum := 7, keyCheck := 18, valueSum := u64ToVec 7 },
    { count := -1, keySum := 2 ^ 63 + 9, keyCheck := 2 ^ 32 - 1, valueSum := [0xff] }]

theorem deserialize_serialize_two :
    deserializeIblt (serializeIblt signedTable) = some signedTable ∧
      ∃ bf bf', (Bloom.ofParameters (fun _ _ => 0) 0 smallParameters).bind
          (Bloom.insertAll · [u64ToVec 7, u64ToVec 9]) = some bf ∧
        deserializeBloomFilter (fun _ _ => 0) 0 (serializeBloomFilter bf) = some bf' ∧
        bf'.contains (u64ToVec 9) = some true := by
  obtain ⟨hiblt, hbloom⟩ := deserialize_serialize (fun _ _ => 0) 0
  refine ⟨hiblt _ ⟨by decide, by decide, ?_⟩, ?_⟩
  · refine List.forall_mem_cons.mpr ⟨⟨by decide, by decide, by decide, by decide⟩, ?_⟩
    exact List.forall_mem_singleton.mpr ⟨by decide, by decide, by decide, by decide⟩
  · obtain ⟨empty, hempty, hall⟩ := hbloom smallParameters (by decide)
    have husable := Bloom.usable_ofParameters (by decide) (by decide) hempty
    obtain ⟨bf, hins, -⟩ := husable.exists_insertAll [u64ToVec 7, u64ToVec 9]
    obtain ⟨bf', hbf', -, hin⟩ := hall _ bf hins
    refine ⟨bf, bf', ?_, hbf', hin _ (List.mem_cons_of_mem _ List.mem_cons_self)⟩
    rw [hempty]
    exact hins

end GrapheneProtocol

end GhostDag
