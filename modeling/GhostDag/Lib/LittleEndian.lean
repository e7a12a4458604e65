import Mathlib

/-!
# GhostDag.Lib.LittleEndian

Words of 32 bits as four bytes, the least significant byte first, and longer
words put together from any number of bytes.
-/

namespace LittleEndian

/-- The four bytes of a word. -/
def encode (x : UInt32) : List UInt8 :=
  [x.toUInt8, (x >>> 8).toUInt8, (x >>> 16).toUInt8, (x >>> 24).toUInt8]

/-- The word that the first four bytes of a list make up; bytes that are
missing count as zero. -/
def decode (bs : List UInt8) : UInt32 :=
  .ofNat ((bs.getD 0 0).toNat + (bs.getD 1 0).toNat * 2 ^ 8 + (bs.getD 2 0).toNat * 2 ^ 16
    + (bs.getD 3 0).toNat * 2 ^ 24)

@[simp] theorem length_encode (x : UInt32) : (encode x).length = 4 := rfl

/-- A word is read back from its bytes, whatever follows them. -/
@[simp] theorem decode_encode_append (x : UInt32) (bs : List UInt8) :
    decode (encode x ++ bs) = x := by
  apply UInt32.toNat_inj.mp
  have hx := x.toNat_lt
  simp only [decode, encode, List.cons_append, List.getD_cons_zero, List.getD_cons_succ,
    UInt32.toNat_toUInt8, UInt32.toNat_shiftRight, UInt32.reduceToNat, Nat.shiftRight_eq_div_pow,
    Nat.reduceMod, UInt32.toNat_ofNat']
  omega

@[simp] theorem decode_encode (x : UInt32) : decode (encode x) = x := by
  simpa using decode_encode_append x []

/-- The number that bytes make up, each shifted to its place. -/
def ofBytes (bs : List UInt8) : ℕ :=
  bs.zipIdx.foldl (fun v b => v ||| b.1.toNat <<< (b.2 * 8)) 0

/-- The next byte of a number. -/
theorem mod_or_byte (x n : ℕ) :
    x % 2 ^ (n * 8) ||| (UInt8.ofNat (x >>> (n * 8))).toNat <<< (n * 8) = x % 2 ^ ((n + 1) * 8) := by
  have hlt : x % 2 ^ (n * 8) < 2 ^ (n * 8) := Nat.mod_lt _ (Nat.two_pow_pos _)
  rw [Nat.or_comm, ← Nat.shiftLeft_add_eq_or_of_lt hlt, UInt8.toNat_ofNat', Nat.shiftLeft_eq,
    Nat.shiftRight_eq_div_pow, Nat.succ_mul, pow_add, Nat.mod_mul, Nat.add_comm,
    Nat.mul_comm (2 ^ (n * 8))]

/-- A number is put together from its bytes. -/
theorem ofBytes_bytes (x n : ℕ) :
    ofBytes ((List.range n).map fun i => UInt8.ofNat (x >>> (i * 8))) = x % 2 ^ (n * 8) := by
  induction n with
  | zero => exact (Nat.mod_one x).symm
  | succ n ih =>
      unfold ofBytes at ih ⊢
      rw [List.range_succ, List.map_append, List.zipIdx_append, List.foldl_append, ih,
        List.length_map, List.length_range, Nat.zero_add]
      exact mod_or_byte x n

end LittleEndian
