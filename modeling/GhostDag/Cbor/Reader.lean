import GhostDag.Cbor.Json
import GhostDag.Lib.BigEndian
import GhostDag.Lib.Parsing

/-!
# GhostDag.Cbor.Reader

`binary_reader::parse_cbor_internal` of `thirdparty/json.h`, and `from_cbor`
without exceptions for parse errors and with tags as errors.

The reader is given a fuel of one for each level of nesting.  The `switch`
over the first byte of a value goes by the upper three bits of it and by the
lower five, as the bytes of a `case` go together.
-/

namespace GhostDag

open Parsing (Reader)

namespace BasicJson

/-- Why there is no value. -/
inductive Failure
  /-- `parse_error`, under its number; the result is a discarded value. -/
  | parseError (id : Nat)
  /-- `out_of_range::create(408, "excessive … size")`, which is thrown. -/
  | excessiveSize
  /-- The reader gave up. -/
  | outOfFuel
  deriving DecidableEq

/-- `get_to` and `get_string` at the end of the input. -/
abbrev endOfInput : Failure := .parseError 110

/-- `get()`, and what comes after it. -/
def getFirst {α : Type} (after : UInt8 → Reader Failure UInt8 α) : Reader Failure UInt8 α :=
  fun input => do
    let (current, input) ← Parsing.next endOfInput input
    after current input

/-- `get_number`. -/
def getNumber (width : Nat) : Reader Failure UInt8 Nat := fun input => do
  let (bytes, input) ← Parsing.take endOfInput width input
  return (BigEndian.decode bytes, input)

/-- The number that goes with the first byte, of which `info` are the lower
five bits. -/
def getArgument (error : Nat) (info : Nat) : Reader Failure UInt8 Nat :=
  if info ≤ 0x17 then fun input => .ok (info, input)
  else if info = 0x18 then getNumber 1
  else if info = 0x19 then getNumber 2
  else if info = 0x1A then getNumber 4
  else if info = 0x1B then getNumber 8
  else fun _ => .error (.parseError error)

/-- `get_cbor_string` and `get_cbor_binary`, which only differ in the upper
bits `major` of the first byte; a piece of indefinite length is made of
pieces. -/
def getBytes (major : Nat) : Nat → UInt8 → Reader Failure UInt8 Bytes
  | 0, _ => fun _ => .error .outOfFuel
  | fuel + 1, current =>
      if current.toNat / 0x20 = major then
        if current.toNat % 0x20 = 0x1F then fun input => do
          let (chunks, input) ←
            Parsing.untilStop endOfInput (· == 0xFF) (getBytes major fuel) input
          return (chunks.flatten, input)
        else fun input => do
          let (length, input) ← getArgument 113 (current.toNat % 0x20) input
          Parsing.take endOfInput length input
      else fun _ => .error (.parseError 113)

/-- `get_cbor_string`. -/
abbrev getCborString : Nat → UInt8 → Reader Failure UInt8 Bytes := getBytes 3

/-- `get_cbor_binary`. -/
abbrev getCborBinary : Nat → UInt8 → Reader Failure UInt8 Bytes := getBytes 2

/-- The size of an array or an object; `none` is `unknown_size()`, which is
also what eight bytes `0xFF` are taken for. -/
def getSize (info : Nat) : Reader Failure UInt8 (Option Nat) :=
  if info = 0x1F then fun input => .ok (none, input)
  else fun input => do
    let (size, input) ← getArgument 112 info input
    return (if size = 2 ^ 64 - 1 then none else some size, input)

/-- The elements of an array or an object, each after its first byte, and what
is made of them. -/
def getContainer {α : Type} (maxSize : Nat) (make : List α → BasicJson)
    (element : UInt8 → Reader Failure UInt8 α) : Option Nat → Reader Failure UInt8 BasicJson
  | some size =>
      if maxSize < size then fun _ => .error .excessiveSize
      else fun input => do
        let (elements, input) ← Parsing.repeated (getFirst element) size input
        return (make elements, input)
  | none => fun input => do
      let (elements, input) ← Parsing.untilStop endOfInput (· == 0xFF) element input
      return (make elements, input)

/-- `get_cbor_array`, with `parse` for `parse_cbor_internal`. -/
def getCborArray (parse : UInt8 → Reader Failure UInt8 BasicJson) :
    Option Nat → Reader Failure UInt8 BasicJson := getContainer maxArraySize .array parse

/-- A key and its value. -/
def getMember (fuel : Nat) (parse : UInt8 → Reader Failure UInt8 BasicJson) (current : UInt8) :
    Reader Failure UInt8 (Bytes × BasicJson) := fun input => do
  let (key, input) ← getCborString fuel current input
  let (value, input) ← getFirst parse input
  return ((key, value), input)

/-- `get_cbor_object`; a later member replaces an earlier one with its key. -/
def getCborObject (fuel : Nat) (parse : UInt8 → Reader Failure UInt8 BasicJson) :
    Option Nat → Reader Failure UInt8 BasicJson :=
  getContainer maxObjectSize ofMembers (getMember fuel parse)

/-- A number of the format that follows.  A NaN comes out as the
quiet one: the payload and the sign that the code keeps of it are dropped. -/
def getFloat (F : BinaryFormat) (width : Nat) : Reader Failure UInt8 BasicJson := fun input => do
  let (word, input) ← getNumber width input
  return (.numberFloat (.ofNat (F.convert .double word)), input)

/-- The values from `0xE0` on. -/
def getSimple (info : Nat) : Reader Failure UInt8 BasicJson :=
  match info with
  | 0x14 => fun input => .ok (.boolean false, input)
  | 0x15 => fun input => .ok (.boolean true, input)
  | 0x16 => fun input => .ok (.null, input)
  | 0x19 => getFloat .half 2
  | 0x1A => getFloat .single 4
  | 0x1B => getFloat .double 8
  | _ => fun _ => .error (.parseError 112)

/-- `get_cbor_negative_integer`; the numbers that are too small would overflow. -/
def getCborNegativeInteger (info : Nat) : Reader Failure UInt8 BasicJson := fun input => do
  let (number, input) ← getArgument 112 info input
  if number < 2 ^ 63 then return (.numberInteger (.ofInt (-1 - number)), input)
  else .error (.parseError 112)

/-- `parse_cbor_internal`, after the first byte. -/
def parseCborInternal : Nat → UInt8 → Reader Failure UInt8 BasicJson
  | 0, _ => fun _ => .error .outOfFuel
  | fuel + 1, current =>
      let info := current.toNat % 0x20
      match current.toNat / 0x20 with
      | 0 => fun input => do
          let (number, input) ← getArgument 112 info input
          return (.numberUnsigned (.ofNat number), input)
      | 1 => getCborNegativeInteger info
      | 2 =>
          if 0x1B < info ∧ info < 0x1F then fun _ => .error (.parseError 112)
          else fun input => do
            let (data, input) ← getCborBinary (fuel + 1) current input
            return (.binary data none, input)
      | 3 =>
          if 0x1B < info ∧ info < 0x1F then fun _ => .error (.parseError 112)
          else fun input => do
            let (s, input) ← getCborString (fuel + 1) current input
            return (.string s, input)
      | 4 => fun input => do
          let (size, input) ← getSize info input
          getCborArray (parseCborInternal fuel) size input
      | 5 => fun input => do
          let (size, input) ← getSize info input
          getCborObject fuel (parseCborInternal fuel) size input
      | 6 => fun _ => .error (.parseError 112)
      | _ => getSimple info

/-- `json::from_cbor(input, true, false)`. -/
def fromCbor (input : Bytes) : Except Failure BasicJson := do
  let (value, rest) ← getFirst (parseCborInternal input.length) input
  match rest with
  | [] => return value
  | _ => .error endOfInput

end BasicJson

end GhostDag
