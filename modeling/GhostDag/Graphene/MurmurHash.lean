import GhostDag.Graphene.Iblt

/-!
# GhostDag.Graphene.MurmurHash

The hash function of the vendored library (`thirdparty/iblt.h`), on a
little-endian machine.

What is proved about tables holds for any function of the seed and the key;
this one is for the tables of the examples.
-/

namespace GhostDag

namespace IbltDetail

def rotl32 (x r : UInt32) : UInt32 := (x <<< r) ||| (x >>> (32 - r))

def fmix32 (h : UInt32) : UInt32 :=
  let h := h ^^^ (h >>> 16)
  let h := h * 0x85ebca6b
  let h := h ^^^ (h >>> 13)
  let h := h * 0xc2b2ae35
  h ^^^ (h >>> 16)

/-- A word of up to four bytes, the lowest first. -/
def wordOf : List UInt8 → UInt32
  | [] => 0
  | a :: bytes => a.toUInt32 ^^^ (wordOf bytes <<< 8)

/-- What becomes of `k1` before it goes into the hash. -/
def mixKey (k1 : UInt32) : UInt32 := rotl32 (k1 * 0xcc9e2d51) 15 * 0x1b873593

/-- The loop over the blocks: the hash, and the tail. -/
def mixBlocks : UInt32 → List UInt8 → UInt32 × List UInt8
  | h1, a :: b :: c :: d :: bytes =>
      mixBlocks (rotl32 (h1 ^^^ mixKey (wordOf [a, b, c, d])) 13 * 5 + 0xe6546b64) bytes
  | h1, tail => (h1, tail)

/-- `MurmurHash3`. -/
def murmurHash3 (seed : UInt32) (data : List UInt8) : UInt32 :=
  let (h1, tail) := mixBlocks seed data
  let h1 := if tail.isEmpty then h1 else h1 ^^^ mixKey (wordOf tail)
  fmix32 (h1 ^^^ .ofNat data.length)

/-- `ToVec`. -/
def toVec (number : UInt64) : List UInt8 :=
  (List.range 8).map fun i => (number >>> .ofNat (i * 8)).toUInt8

/-- `MurmurHash3` as the tables use it: on a seed and a key. -/
def keyHash (seed k : Nat) : Nat := (murmurHash3 (.ofNat seed) (toVec (.ofNat k))).toNat

end IbltDetail

end GhostDag
