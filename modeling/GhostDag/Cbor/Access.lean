import GhostDag.Cbor.RoundTrip
import GhostDag.Lib.Binary32

/-!
# GhostDag.Cbor.Access

How values are built and read (`basic_json` of `thirdparty/json.h`): members
are assigned in turn and looked up under the names that the program writes,
and a value is asked for with `get`.

`none` is an exception, or a conversion that is undefined.
-/

namespace GhostDag

namespace BasicJson

open BinaryFormat (double)

/-! ## members -/

/-- A string literal of ASCII characters. -/
def text (s : String) : Bytes := s.toList.map fun c => .ofNat c.toNat

/-- `operator[]` of an object; there is no element for a key that is not
there. -/
def member (key : String) : BasicJson → Option BasicJson
  | .object members => members.lookup (text key)
  | _ => none

/-- `value`, with a `get` of its type; only an object may be asked. -/
def value {α : Type} (get : BasicJson → Option α) (key : String) (defaultValue : α) :
    BasicJson → Option α
  | .object members =>
      match members.lookup (text key) with
      | some j => get j
      | none => some defaultValue
  | _ => none

/-! ## get -/

/-- A finite double without its fraction. -/
def truncate (word : UInt64) : Int :=
  let q := double.toRat word.toNat
  if 0 ≤ q then ⌊q⌋ else ⌈q⌉

/-- `get_arithmetic_value`, before it casts to a type that has the integers
from `lo` to `hi`; what a double has to fit into. -/
def getIntegral (lo hi : Int) : BasicJson → Option Int
  | .numberInteger n => some n.toInt
  | .numberUnsigned n => some n.toNat
  | .numberFloat word =>
      if double.unsigned word.toNat < double.inf ∧ lo ≤ truncate word ∧ truncate word ≤ hi then
        some (truncate word)
      else none
  | _ => none

/-- `get<uint64_t>`. -/
def getUInt64 (j : BasicJson) : Option UInt64 := (j.getIntegral 0 (2 ^ 64 - 1)).map .ofInt

/-- `get<uint32_t>`, which takes booleans, too. -/
def getUInt32 : BasicJson → Option UInt32
  | .boolean b => some (if b then 1 else 0)
  | j => (j.getIntegral 0 (2 ^ 32 - 1)).map .ofInt

/-- `get<int>`. -/
def getInt : BasicJson → Option Int32
  | .boolean b => some (if b then 1 else 0)
  | j => (j.getIntegral (-2 ^ 31) (2 ^ 31 - 1)).map .ofInt

/-- An integer as a double, rounded to 53 bits. -/
def roundToDouble (n : Int) : ℚ :=
  let ulp : ℚ := 2 ^ (n.natAbs.log2 - 52)
  Binary32.roundHalfEven (n / ulp) * ulp

/-- `get<double>`, where it is a number. -/
def getDouble : BasicJson → Option ℚ
  | .numberInteger n => some (roundToDouble n.toInt)
  | .numberUnsigned n => some (roundToDouble n.toNat)
  | .numberFloat word =>
      if double.unsigned word.toNat < double.inf then some (double.toRat word.toNat) else none
  | _ => none

/-- `get<bool>`. -/
def getBoolean : BasicJson → Option Bool
  | .boolean b => some b
  | _ => none

/-- `get<std::string>`. -/
def getString : BasicJson → Option Bytes
  | .string s => some s
  | _ => none

/-- `get<std::vector<uint64_t>>`. -/
def getUInt64s : BasicJson → Option (List UInt64)
  | .array elements => elements.mapM getUInt64
  | _ => none

/-- What a loop over a value goes through. -/
def elements : BasicJson → List BasicJson
  | .null => []
  | .array elements => elements
  | .object members => members.map Prod.snd
  | j => [j]

@[simp] theorem getUInt64_numberUnsigned (n : UInt64) : (numberUnsigned n).getUInt64 = some n := by
  have hmod : (n.toNat : ℤ) % 2 ^ 64 = n.toNat :=
    Int.emod_eq_of_lt n.toNat.cast_nonneg (by exact_mod_cast n.toNat_lt)
  rw [getUInt64, getIntegral, Option.map_some, UInt64.ofInt, hmod, Int.toNat_natCast,
    UInt64.ofNat_toNat]

/-- A 32-bit number in a 64-bit one. -/
theorem getUInt32_numberUnsigned {n : ℕ} (h : n < 2 ^ 32) :
    (numberUnsigned (.ofNat n)).getUInt32 = some (.ofNat n) := by
  have hn : (UInt64.ofNat n).toNat = n := UInt64.toNat_ofNat_of_lt' (h.trans (by decide))
  have hmod : (n : ℤ) % 2 ^ 32 = n := Int.emod_eq_of_lt n.cast_nonneg (by exact_mod_cast h)
  rw [getUInt32, getIntegral, Option.map_some, hn, UInt32.ofInt, hmod, Int.toNat_natCast]
  exact fun b h => by cases h

@[simp] theorem elements_received_array (l : List BasicJson) :
    (array l).received.elements = l.map received := by
  rw [received, elements, receivedElements_eq]

/-- A number that a double has. -/
theorem getDouble_numberFloat {q : ℚ} (h : double.Represents q) :
    (numberFloat (receivedFloat (.ofNat (double.ofRat q)))).getDouble = some q := by
  obtain ⟨hlt, hfin, hq⟩ := BinaryFormat.toRat_ofRat h
  have hword : (UInt64.ofNat (double.ofRat q)).toNat = double.ofRat q :=
    UInt64.toNat_ofNat_of_lt' hlt
  rw [receivedFloat, hword, BinaryFormat.convert_self hfin.le, getDouble, hword, if_pos hfin, hq]

/-! ## what has been assigned -/

theorem lookup_insert (key key' : Bytes) (j : BasicJson) (members : List (Bytes × BasicJson)) :
    (insert key j members).lookup key' =
      if key' = key then some j else members.lookup key' := by
  induction members with
  | nil =>
      rw [insert, List.lookup_cons]
      split <;> simp_all
  | cons m members ih =>
      rw [insert]
      split
      · rw [List.lookup_cons]
        split <;> simp_all
      · split
        · next heq =>
            rw [List.lookup_cons, List.lookup_cons, heq]
            split <;> simp_all
        · next hne =>
            rw [List.lookup_cons, List.lookup_cons, ih]
            by_cases hkey : key' = m.1
            · have hne' : key' ≠ key := fun h => hne (h.symm.trans hkey)
              rw [beq_iff_eq.mpr hkey]
              exact (if_neg hne').symm
            · rw [beq_eq_false_iff_ne.mpr hkey]

/-- **The last assignment counts.** -/
theorem lookup_foldl_insert (members object : List (Bytes × BasicJson)) (key : Bytes) :
    (members.foldl (fun object m => insert m.1 m.2 object) object).lookup key =
      (members.reverse.lookup key).or (object.lookup key) := by
  induction members generalizing object with
  | nil => rfl
  | cons m members ih =>
      rw [List.foldl_cons, ih, lookup_insert, List.reverse_cons, List.lookup_append, Option.or_assoc]
      congr 1
      by_cases hkey : key = m.1
      · rw [if_pos hkey, List.lookup_cons, beq_iff_eq.mpr hkey]
        rfl
      · rw [if_neg hkey, List.lookup_cons, beq_eq_false_iff_ne.mpr hkey]
        rfl

/-- A member of an object that was built. -/
theorem member_ofMembers (members : List (Bytes × BasicJson)) (key : String) :
    (ofMembers members).member key = members.reverse.lookup (text key) := by
  rw [ofMembers, member, lookup_foldl_insert]
  exact Option.or_none

theorem value_ofMembers {α : Type} (get : BasicJson → Option α) (key : String) (defaultValue : α)
    (members : List (Bytes × BasicJson)) :
    (ofMembers members).value get key defaultValue =
      match members.reverse.lookup (text key) with
      | some j => get j
      | none => some defaultValue := by
  rw [ofMembers, value, lookup_foldl_insert]
  exact congrArg (fun o => match o with | some j => get j | none => some defaultValue) Option.or_none

theorem map_insert (f : BasicJson → BasicJson) (key : Bytes) (j : BasicJson)
    (members : List (Bytes × BasicJson)) :
    (insert key j members).map (fun m => (m.1, f m.2)) =
      insert key (f j) (members.map fun m => (m.1, f m.2)) := by
  induction members with
  | nil => rfl
  | cons m members ih =>
      rw [insert, List.map_cons, insert]
      split
      · rfl
      · split
        · rfl
        · rw [List.map_cons, ih]

/-- An object arrives with its members as they arrive. -/
theorem received_ofMembers (members : List (Bytes × BasicJson)) :
    (ofMembers members).received = ofMembers (members.map fun m => (m.1, m.2.received)) := by
  rw [ofMembers, ofMembers, received, receivedMembers_eq]
  congr 1
  induction members using List.reverseRecOn with
  | nil => rfl
  | append_singleton members m ih =>
      rw [List.foldl_append, List.map_append, List.foldl_append, ← ih]
      exact map_insert received m.1 m.2 _

/-! ## values that are built -/

/-- The keys of objects are in order, and no binary value has a subtype. -/
inductive Regular : BasicJson → Prop
  | null : Regular .null
  | boolean (b : Bool) : Regular (.boolean b)
  | numberInteger (n : Int64) : Regular (.numberInteger n)
  | numberUnsigned (n : UInt64) : Regular (.numberUnsigned n)
  | numberFloat (word : UInt64) : Regular (.numberFloat word)
  | string (s : Bytes) : Regular (.string s)
  | array {elements : List BasicJson} : (∀ j ∈ elements, Regular j) → Regular (.array elements)
  | binary (data : Bytes) : Regular (.binary data none)
  | object {members : List (Bytes × BasicJson)} :
      Ordered members → (∀ m ∈ members, Regular m.2) → Regular (.object members)

/-- An object that was built is regular if its members are. -/
theorem regular_ofMembers {members : List (Bytes × BasicJson)} (h : ∀ m ∈ members, Regular m.2) :
    Regular (ofMembers members) := by
  obtain ⟨object, hobject, hord, -, hmem⟩ := exists_ofMembers members
  rw [hobject]
  exact .object hord fun m hm => h m (hmem m hm)

theorem length_writeHead_pos (major n : ℕ) : 0 < (writeHead major n).length := by
  unfold writeHead
  split
  · exact Nat.one_pos
  · split
    · exact Nat.succ_pos _
    · split
      · exact Nat.succ_pos _
      · split <;> exact Nat.succ_pos _

theorem length_writeCbor_pos {j : BasicJson} (h : j.Regular) : 0 < j.writeCbor.length := by
  cases h with
  | null => exact Nat.one_pos
  | boolean b => exact Nat.one_pos
  | numberInteger n =>
      rw [writeCbor]
      split <;> exact length_writeHead_pos _ _
  | numberUnsigned n => exact length_writeHead_pos _ _
  | numberFloat word =>
      rw [writeCbor, writeFloat]
      split
      · exact Nat.succ_pos _
      · split
        · exact Nat.succ_pos _
        · rw [writeCompactFloat]
          split <;> exact Nat.succ_pos _
  | string s =>
      rw [writeCbor, List.length_append]
      exact Nat.add_pos_left (length_writeHead_pos _ _) _
  | array =>
      rw [writeCbor, List.length_append]
      exact Nat.add_pos_left (length_writeHead_pos _ _) _
  | binary data =>
      rw [writeCbor, Option.map_none, Option.getD_none, List.nil_append, List.length_append]
      exact Nat.add_pos_left (length_writeHead_pos _ _) _
  | object =>
      rw [writeCbor, List.length_append]
      exact Nat.add_pos_left (length_writeHead_pos _ _) _

/-- A part of a list of pieces is no longer than all of them, and there are no
more pieces than items. -/
theorem length_le_length_flatMap {α σ : Type} {f : α → List σ} {l : List α}
    (hpos : ∀ a ∈ l, 0 < (f a).length) :
    l.length ≤ (l.flatMap f).length ∧ ∀ a ∈ l, (f a).length ≤ (l.flatMap f).length := by
  induction l with
  | nil => exact ⟨Nat.le_refl 0, fun a ha => absurd ha List.not_mem_nil⟩
  | cons b l ih =>
      obtain ⟨hb, hpos⟩ := List.forall_mem_cons.mp hpos
      obtain ⟨hlen, hle⟩ := ih hpos
      rw [List.flatMap_cons, List.length_append, List.length_cons]
      refine ⟨by omega, fun a ha => ?_⟩
      obtain rfl | ha := List.mem_cons.mp ha
      · exact Nat.le_add_right _ _
      · exact (hle a ha).trans (Nat.le_add_left _ _)

/-- **What is written into memory is small enough to travel.** -/
theorem Regular.portable {j : BasicJson} (h : j.Regular) (hlen : j.writeCbor.length < 2 ^ 56) :
    j.Portable := by
  have harray : 2 ^ 56 ≤ maxArraySize := by decide
  have hobject : 2 ^ 56 ≤ maxObjectSize := by decide
  induction h with
  | null => exact .null
  | boolean b => exact .boolean b
  | numberInteger n => exact .numberInteger n
  | numberUnsigned n => exact .numberUnsigned n
  | numberFloat word => exact .numberFloat word
  | string s =>
      rw [writeCbor, List.length_append] at hlen
      exact .string (by omega)
  | @array elements hall ih =>
      rw [writeCbor, List.length_append, writeElements_eq] at hlen
      obtain ⟨hcount, hle⟩ := length_le_length_flatMap (f := writeCbor)
        fun j hj => length_writeCbor_pos (hall j hj)
      exact .array (by omega) fun j hj => ih j hj (by have := hle j hj; omega)
  | binary data =>
      rw [writeCbor, Option.map_none, Option.getD_none, List.nil_append, List.length_append] at hlen
      exact .binary (by omega)
  | @object members hord hall ih =>
      rw [writeCbor, List.length_append, writeMembers_eq] at hlen
      obtain ⟨hcount, hle⟩ := length_le_length_flatMap (l := members)
        (f := fun m => writeHead 3 m.1.length ++ m.1 ++ writeCbor m.2) fun m hm => by
          have := length_writeCbor_pos (hall m hm)
          simp only [List.length_append]
          omega
      simp only [List.length_append] at hle
      exact .object (by omega) hord (fun m hm => by have := hle m hm; omega)
        fun m hm => ih m hm (by have := hle m hm; omega)

/-- **A value that was built arrives.** -/
theorem fromCbor_writeCbor {j : BasicJson} (h : j.Regular) (hlen : j.toCbor.length < 2 ^ 56) :
    fromCbor j.toCbor = .ok j.received :=
  fromCbor_eq_ok_iff.mpr (item_writeCbor (h.portable hlen))

end BasicJson

end GhostDag
