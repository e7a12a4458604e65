import Mathlib

/-!
# GhostDag.Lib.XorWord

Words under exclusive or: a commutative group in which every element is its
own inverse.
-/

/-- A word whose sum is the exclusive or. -/
@[ext] structure XorWord where
  word : ℕ
  deriving DecidableEq

namespace XorWord

instance : Zero XorWord := ⟨⟨0⟩⟩
instance : Add XorWord := ⟨fun a b => ⟨a.word ^^^ b.word⟩⟩
instance : Neg XorWord := ⟨id⟩

@[simp] theorem word_zero : (0 : XorWord).word = 0 := rfl
@[simp] theorem word_add (a b : XorWord) : (a + b).word = a.word ^^^ b.word := rfl

instance : AddCommGroup XorWord where
  add_assoc a b c := congrArg mk (Nat.xor_assoc a.word b.word c.word)
  zero_add a := congrArg mk (Nat.zero_xor a.word)
  add_zero a := congrArg mk (Nat.xor_zero a.word)
  add_comm a b := congrArg mk (Nat.xor_comm a.word b.word)
  neg_add_cancel a := congrArg mk (Nat.xor_self a.word)
  nsmul := nsmulRec
  zsmul := zsmulRec

@[simp] theorem neg_eq (a : XorWord) : -a = a := rfl

end XorWord
