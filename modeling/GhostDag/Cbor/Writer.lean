import GhostDag.Cbor.Json
import GhostDag.Lib.BigEndian

/-!
# GhostDag.Cbor.Writer

`binary_writer::write_cbor` of `thirdparty/json.h`.
-/

namespace GhostDag

namespace BasicJson

/-- The byte that begins a value, and the number that goes with it: in the
byte itself, or in one, two, four or eight bytes behind it. -/
def writeHead (major n : Nat) : Bytes :=
  if n ≤ 0x17 then [.ofNat (major * 0x20 + n)]
  else if n ≤ 0xFF then .ofNat (major * 0x20 + 0x18) :: BigEndian.encode 1 n
  else if n ≤ 0xFFFF then .ofNat (major * 0x20 + 0x19) :: BigEndian.encode 2 n
  else if n ≤ 0xFFFFFFFF then .ofNat (major * 0x20 + 0x1A) :: BigEndian.encode 4 n
  else .ofNat (major * 0x20 + 0x1B) :: BigEndian.encode 8 n

/-- The tag before binary data with a subtype. -/
def writeSubtype (subtype : UInt64) : Bytes :=
  if subtype ≤ 0xFF then 0xD8 :: BigEndian.encode 1 subtype.toNat
  else if subtype ≤ 0xFFFF then 0xD9 :: BigEndian.encode 2 subtype.toNat
  else if subtype ≤ 0xFFFFFFFF then 0xDA :: BigEndian.encode 4 subtype.toNat
  else 0xDB :: BigEndian.encode 8 subtype.toNat

/-- `write_compact_float`: four bytes are enough if a `float` is the same
number. -/
def writeCompactFloat (word : Nat) : Bytes :=
  match BinaryFormat.double.narrow .single word with
  | some single => 0xFA :: BigEndian.encode 4 single
  | none => 0xFB :: BigEndian.encode 8 word

/-- The case `value_t::number_float`. -/
def writeFloat (word : Nat) : Bytes :=
  if BinaryFormat.double.inf < BinaryFormat.double.unsigned word then [0xF9, 0x7E, 0x00]
  else if BinaryFormat.double.unsigned word = BinaryFormat.double.inf then
    [0xF9, if word < BinaryFormat.double.signBit then 0x7C else 0xFC, 0x00]
  else writeCompactFloat word

mutual

/-- `write_cbor`. -/
def writeCbor : BasicJson → Bytes
  | .null => [0xF6]
  | .boolean b => [if b then 0xF5 else 0xF4]
  | .numberInteger n =>
      if 0 ≤ n then writeHead 0 n.toInt.toNat else writeHead 1 (-1 - n.toInt).toNat
  | .numberUnsigned n => writeHead 0 n.toNat
  | .numberFloat word => writeFloat word.toNat
  | .string s => writeHead 3 s.length ++ s
  | .array elements => writeHead 4 elements.length ++ writeElements elements
  | .binary data subtype =>
      (subtype.map writeSubtype).getD [] ++ (writeHead 2 data.length ++ data)
  | .object members => writeHead 5 members.length ++ writeMembers members

def writeElements : List BasicJson → Bytes
  | [] => []
  | j :: elements => writeCbor j ++ writeElements elements

def writeMembers : List (Bytes × BasicJson) → Bytes
  | [] => []
  | (key, j) :: members => (writeHead 3 key.length ++ key ++ writeCbor j) ++ writeMembers members

end

/-- `json::to_cbor`. -/
def toCbor (j : BasicJson) : Bytes := j.writeCbor

theorem writeElements_eq (elements : List BasicJson) :
    writeElements elements = elements.flatMap writeCbor := by
  induction elements with
  | nil => rfl
  | cons j elements ih => rw [writeElements, ih, List.flatMap_cons]

theorem writeMembers_eq (members : List (Bytes × BasicJson)) :
    writeMembers members =
      members.flatMap fun m => writeHead 3 m.1.length ++ m.1 ++ writeCbor m.2 := by
  induction members with
  | nil => rfl
  | cons m members ih => rw [writeMembers, ih, List.flatMap_cons]

end BasicJson

end GhostDag
