import Mathlib

/-!
# GhostDag.Dag.BitSet

The dense bit set over block indices (`BitSet` of `dag.h`): a vector of
64-bit words, index `i` living in bit `i & 63` of word `i >> 6`.  Words past
the end of the vector read as zero, so sets of different lengths combine.

Every operation is characterised by what `test` answers afterwards; the
iteration `forEach` is the ascending list of members, and both population
counts are lengths of such lists.
-/

namespace GhostDag

/-- `BitSet::words_`. -/
structure BitSet where
  words : List (BitVec 64) := []
  deriving DecidableEq, Repr

namespace BitSet

instance : EmptyCollection BitSet := ⟨{}⟩

/-! ## the operations -/

/-- The word holding index `i`. -/
def wordIdx (i : Nat) : Nat := i >>> 6

/-- The bit of its word that stands for index `i`. -/
def bitIdx (i : Nat) : Nat := i &&& 63

def test (s : BitSet) (i : Nat) : Bool :=
  match s.words[wordIdx i]? with
  | some w => (w >>> bitIdx i) &&& 1#64 != 0#64
  | none => false

/-- `std::vector::resize` for growth: pad with zero words up to length `n`. -/
def grow (ws : List (BitVec 64)) (n : Nat) : List (BitVec 64) :=
  ws ++ List.replicate (n - ws.length) 0#64

def set (s : BitSet) (i : Nat) : BitSet :=
  ⟨(grow s.words (wordIdx i + 1)).modify (wordIdx i) (· ||| 1#64 <<< bitIdx i)⟩

def reset (s : BitSet) (i : Nat) : BitSet :=
  ⟨s.words.modify (wordIdx i) (· &&& ~~~(1#64 <<< bitIdx i))⟩

/-- `operator|=`. -/
def or (s o : BitSet) : BitSet :=
  ⟨(grow s.words o.words.length).mapIdx fun i w =>
    match o.words[i]? with
    | some v => w ||| v
    | none => w⟩

def count (s : BitSet) : Nat := (s.words.map fun w => w.cpop.toNat).sum

/-- The population count of the intersection, over the common words only. -/
def countAnd (s o : BitSet) : Nat :=
  (List.zipWith (fun a b => (a &&& b).cpop.toNat) s.words o.words).sum

/-- `this & ~o`. -/
def andNot (s o : BitSet) : BitSet :=
  ⟨s.words.mapIdx fun i w =>
    w &&& (match o.words[i]? with
      | some v => ~~~v
      | none => ~~~0#64)⟩

/-- `while (w) { bit = ctz(w); ...; w &= w - 1; }`: the bits visited in one
word.  A word has at most 64 of them, so 64 rounds are enough
(`wordBits_eq`). -/
def wordBits : Nat → BitVec 64 → List Nat
  | 0, _ => []
  | n + 1, w => if w = 0#64 then [] else w.ctz.toNat :: wordBits n (w &&& (w - 1#64))

/-- The indices `for_each` calls its argument on, in call order. -/
def forEach (s : BitSet) : List Nat :=
  (s.words.mapIdx fun wi w => (wordBits 64 w).map (wi <<< 6 + ·)).flatten

/-- Call `f` on the indices in turn, threading a state, until it says stop. -/
def visit (f : σ → Nat → σ × Bool) : List Nat → σ → σ
  | [], a => a
  | i :: is, a => if (f a i).2 then visit f is (f a i).1 else (f a i).1

/-- `for_each_and_not`: the members of `this & ~o` in ascending order, up to
the first one on which the callback returns false. -/
def forEachAndNot (s o : BitSet) (f : σ → Nat → σ × Bool) (init : σ) : σ :=
  visit f (s.andNot o).forEach init

def empty (s : BitSet) : Bool := s.words.all (· == 0#64)

/-! ## test after each operation -/

theorem wordIdx_eq (i : Nat) : wordIdx i = i / 64 := by
  simp [wordIdx, Nat.shiftRight_eq_div_pow]

theorem bitIdx_eq (i : Nat) : bitIdx i = i % 64 := by
  simpa [bitIdx] using Nat.and_two_pow_sub_one_eq_mod i 6

/-- Two indices are equal when they share word and bit. -/
theorem eq_iff_wordIdx_bitIdx (i j : Nat) : i = j ↔ wordIdx i = wordIdx j ∧ bitIdx i = bitIdx j := by
  simp only [wordIdx_eq, bitIdx_eq]
  omega

theorem bitIdx_lt (i : Nat) : bitIdx i < 64 := by
  rw [bitIdx_eq]; omega

/-- Shifting a word down and masking the lowest bit reads that bit. -/
theorem shiftRight_and_one_ne_zero (w : BitVec 64) (n : Nat) :
    ((w >>> n) &&& 1#64 != 0#64) = w.getLsbD n := by
  have hone : (w >>> n) &&& 1#64 = if w.getLsbD n then 1#64 else 0#64 := by
    apply BitVec.eq_of_getLsbD_eq
    intro i hi
    by_cases h0 : i = 0
    · subst h0; cases hw : w.getLsbD n <;> simp [hw]
    · cases w.getLsbD n <;> simp [h0, BitVec.getLsbD_one]
  rw [hone]
  cases w.getLsbD n <;> decide

/-- `test` reads one bit of one word, missing words being zero. -/
theorem test_eq (s : BitSet) (i : Nat) :
    s.test i = (s.words[wordIdx i]?.getD 0#64).getLsbD (bitIdx i) := by
  unfold test
  cases s.words[wordIdx i]? with
  | none => simp
  | some w => simp [shiftRight_and_one_ne_zero]

/-- The mask `1 << b` has exactly bit `b`. -/
theorem getLsbD_one_shiftLeft {b : Nat} (hb : b < 64) (i : Nat) :
    (1#64 <<< b).getLsbD i = decide (i = b) := by
  rw [BitVec.getLsbD_shiftLeft, BitVec.getLsbD_one]
  by_cases h : i = b
  · subst h; simp [hb]
  · by_cases hlt : i < b
    · simp [h, hlt]
    · have hne : i - b ≠ 0 := by omega
      simp [h, hne]

theorem getElem?_grow (ws : List (BitVec 64)) (n i : Nat) :
    (grow ws n)[i]?.getD 0#64 = ws[i]?.getD 0#64 := by
  unfold grow
  by_cases h : i < ws.length
  · rw [List.getElem?_append_left h]
  · rw [List.getElem?_append_right (by omega), List.getElem?_eq_none (l := ws) (by omega)]
    rw [List.getElem?_replicate]
    split <;> rfl

theorem length_grow (ws : List (BitVec 64)) (n : Nat) : (grow ws n).length = max ws.length n := by
  simp only [grow, List.length_append, List.length_replicate]
  omega

@[simp] theorem test_empty (i : Nat) : (∅ : BitSet).test i = false := rfl

/-- Padding adds no member. -/
theorem test_grow (ws : List (BitVec 64)) (n j : Nat) :
    (⟨grow ws n⟩ : BitSet).test j = (⟨ws⟩ : BitSet).test j := by
  rw [test_eq, test_eq, getElem?_grow]

/-- Setting one bit of a word that is there. -/
theorem test_modify {ws : List (BitVec 64)} {i : Nat} (hlen : wordIdx i < ws.length) (j : Nat) :
    (⟨ws.modify (wordIdx i) (· ||| 1#64 <<< bitIdx i)⟩ : BitSet).test j =
      (decide (j = i) || (⟨ws⟩ : BitSet).test j) := by
  rw [test_eq, test_eq]
  simp only [List.getElem?_modify]
  by_cases hw : wordIdx i = wordIdx j
  · rw [← hw, List.getElem?_eq_getElem hlen]
    simp only [if_true, Option.map_eq_map, Option.map_some, Option.getD_some, BitVec.getLsbD_or,
      getLsbD_one_shiftLeft (bitIdx_lt i)]
    rw [Bool.or_comm]
    congr 1
    exact decide_eq_decide.mpr
      ⟨fun h => (eq_iff_wordIdx_bitIdx j i).mpr ⟨hw.symm, h⟩, fun h => by rw [h]⟩
  · have hne : j ≠ i := fun h => hw (by rw [h])
    simp [hw, hne]

@[simp] theorem test_set (s : BitSet) (i j : Nat) :
    (s.set i).test j = (decide (j = i) || s.test j) := by
  have hlen : wordIdx i < (grow s.words (wordIdx i + 1)).length := by
    rw [length_grow]; omega
  rw [set, test_modify hlen, test_grow]

@[simp] theorem test_reset (s : BitSet) (i j : Nat) :
    (s.reset i).test j = (decide (j ≠ i) && s.test j) := by
  rw [test_eq, test_eq]
  simp only [reset, List.getElem?_modify]
  by_cases hw : wordIdx i = wordIdx j
  · rw [← hw]
    have hji : j = i ↔ bitIdx j = bitIdx i :=
      ⟨fun h => by rw [h], fun h => (eq_iff_wordIdx_bitIdx j i).mpr ⟨hw.symm, h⟩⟩
    cases s.words[wordIdx i]? with
    | none => simp
    | some w =>
        simp only [if_true, Option.map_eq_map, Option.map_some, Option.getD_some,
          BitVec.getLsbD_and, BitVec.getLsbD_not, getLsbD_one_shiftLeft (bitIdx_lt i), bitIdx_lt j,
          decide_true, Bool.true_and, decide_not, hji]
        rw [Bool.and_comm]
  · have hne : j ≠ i := fun h => hw (by rw [h])
    simp [hw, hne]

@[simp] theorem test_or (s o : BitSet) (j : Nat) :
    (s.or o).test j = (s.test j || o.test j) := by
  rw [test_eq, test_eq, test_eq]
  simp only [or, List.getElem?_mapIdx]
  rw [← getElem?_grow s.words o.words.length]
  by_cases h : wordIdx j < (grow s.words o.words.length).length
  · rw [List.getElem?_eq_getElem h]
    cases o.words[wordIdx j]? <;> simp
  · have ho : o.words[wordIdx j]? = none := by
      rw [length_grow] at h
      exact List.getElem?_eq_none (by omega)
    rw [List.getElem?_eq_none (Nat.le_of_not_lt h), ho]
    simp

@[simp] theorem test_andNot (s o : BitSet) (j : Nat) :
    (s.andNot o).test j = (s.test j && !o.test j) := by
  rw [test_eq, test_eq, test_eq]
  simp only [andNot, List.getElem?_mapIdx]
  cases s.words[wordIdx j]? with
  | none => simp
  | some w =>
      cases o.words[wordIdx j]? <;>
        simp only [Option.map_some, Option.getD_some, Option.getD_none, BitVec.getLsbD_and,
          BitVec.getLsbD_not, BitVec.getLsbD_zero, bitIdx_lt j, decide_true, Bool.true_and]

theorem empty_iff (s : BitSet) : s.empty = true ↔ ∀ i, s.test i = false := by
  simp only [empty, List.all_eq_true, beq_iff_eq]
  constructor
  · intro h i
    rw [test_eq]
    cases hw : s.words[wordIdx i]? with
    | none => simp
    | some w => simp [h w (List.mem_of_getElem? hw)]
  · intro h w hw
    obtain ⟨n, hn⟩ := List.mem_iff_getElem?.mp hw
    apply BitVec.eq_of_getLsbD_eq
    intro b hb
    have ht := h (n * 64 + b)
    rw [test_eq, wordIdx_eq, bitIdx_eq, show (n * 64 + b) / 64 = n by omega,
      show (n * 64 + b) % 64 = b by omega, hn] at ht
    simpa using ht

/-! ## iteration -/

/-- Writing `w = 2 ^ t * m` with `m` odd, `w - 1` has the bits of `w` above
bit `t`, none at `t`, and ones below. -/
theorem testBit_and_pred_of_odd {m : Nat} (t i : Nat) (hm : m % 2 = 1) :
    ((2 ^ t * m).testBit i && (2 ^ t * m - 1).testBit i) =
      ((2 ^ t * m).testBit i && decide (i ≠ t)) := by
  have hpos : 0 < 2 ^ t := Nat.two_pow_pos t
  have hpred : 2 ^ t * m - 1 = 2 ^ t * (m - 1) + (2 ^ t - 1) := by
    have : 2 ^ t * m = 2 ^ t * (m - 1) + 2 ^ t := by
      rw [← Nat.mul_succ]; congr 1; omega
    omega
  rw [hpred, Nat.testBit_two_pow_mul_add _ (by omega), Nat.testBit_two_pow_mul]
  by_cases hlt : i < t
  · simp [hlt]
  · have hge : t ≤ i := Nat.le_of_not_lt hlt
    by_cases heq : i = t
    · subst heq
      have hev : (m - 1).testBit 0 = false := by
        rw [Nat.testBit_zero, decide_eq_false_iff_not]; omega
      simp [hev]
    · obtain ⟨d, hd⟩ : ∃ d, i - t = d + 1 := ⟨i - t - 1, by omega⟩
      have hhalf : (m - 1) / 2 = m / 2 := by omega
      simp [hlt, heq, hge, hd, Nat.testBit_succ, hhalf]

/-- `w & (w - 1)` clears exactly the lowest set bit. -/
theorem getLsbD_clearLowest {w : BitVec 64} (hw : w ≠ 0#64) (i : Nat) :
    (w &&& (w - 1#64)).getLsbD i = (w.getLsbD i && decide (i ≠ w.ctz.toNat)) := by
  obtain ⟨t, ht⟩ : ∃ t, w.ctz.toNat = t := ⟨_, rfl⟩
  have hbit : w.toNat.testBit t = true := by
    rw [← ht]; exact BitVec.getLsbD_true_ctz_of_ne_zero hw
  have hlow : w.toNat % 2 ^ t = 0 := by
    apply Nat.eq_of_testBit_eq
    intro j
    rw [Nat.testBit_mod_two_pow, Nat.zero_testBit]
    by_cases hj : j < t
    · have hz : w.toNat.testBit j = false :=
        BitVec.getLsbD_false_of_lt_ctz (x := w) (by rw [ht]; exact hj)
      rw [hz, Bool.and_false]
    · simp [hj]
  obtain ⟨m, hm⟩ : ∃ m, w.toNat = 2 ^ t * m := Nat.dvd_of_mod_eq_zero hlow
  have hodd : m % 2 = 1 := by
    rw [hm, Nat.testBit_two_pow_mul] at hbit
    simpa using hbit
  have hne : w.toNat ≠ 0 := fun h => hw (BitVec.eq_of_toNat_eq (by simpa using h))
  have hpred : (w - 1#64).toNat = w.toNat - 1 := by
    have := w.isLt
    rw [BitVec.toNat_sub]
    simp only [BitVec.toNat_ofNat]
    omega
  rw [ht, BitVec.getLsbD_and]
  show (w.toNat.testBit i && (w - 1#64).toNat.testBit i) = (w.toNat.testBit i && _)
  rw [hpred, hm]
  exact testBit_and_pred_of_odd t i hodd

/-- The set bits of a word, lowest first. -/
def members (w : BitVec 64) : List Nat := (List.range 64).filter w.getLsbD

/-- The lowest set bit comes first, and the rest are those of the word with
it cleared. -/
theorem members_cons {w : BitVec 64} (hw : w ≠ 0#64) :
    members w = w.ctz.toNat :: members (w &&& (w - 1#64)) := by
  obtain ⟨t, ht⟩ : ∃ t, w.ctz.toNat = t := ⟨_, rfl⟩
  have hbit : w.getLsbD t = true := by rw [← ht]; exact BitVec.getLsbD_true_ctz_of_ne_zero hw
  have ht64 : t < 64 := BitVec.lt_of_getLsbD hbit
  have hsplit : List.range 64 = List.range t ++ t :: List.range' (t + 1) (63 - t) := by
    have happ := List.range'_append_1 (s := 0) (m := t) (n := 64 - t)
    rw [Nat.zero_add, Nat.add_sub_cancel' (Nat.le_of_lt ht64)] at happ
    rw [← List.range'_succ, show 63 - t + 1 = 64 - t by omega, List.range_eq_range',
      List.range_eq_range', happ]
  have hbelow : ∀ v : BitVec 64, (∀ i < t, v.getLsbD i = false) →
      (List.range t).filter v.getLsbD = [] := by
    intro v hv
    rw [List.filter_eq_nil_iff]
    intro i hi
    simp [hv i (List.mem_range.mp hi)]
  have hzero : ∀ i < t, w.getLsbD i = false := fun i hi =>
    BitVec.getLsbD_false_of_lt_ctz (by rw [ht]; exact hi)
  have hclear : ∀ i, (w &&& (w - 1#64)).getLsbD i = (w.getLsbD i && decide (i ≠ t)) := by
    rw [← ht]; exact getLsbD_clearLowest hw
  have habove : (List.range' (t + 1) (63 - t)).filter (w &&& (w - 1#64)).getLsbD =
      (List.range' (t + 1) (63 - t)).filter w.getLsbD := by
    apply List.filter_congr
    intro i hi
    have hne : i ≠ t := by
      have := (List.mem_range'_1.mp hi).1
      omega
    simp [hclear, hne]
  rw [members, members, hsplit, List.filter_append, List.filter_append,
    hbelow w hzero, hbelow _ (fun i hi => by rw [hclear, hzero i hi, Bool.false_and]), ht]
  rw [List.filter_cons_of_pos hbit, List.filter_cons_of_neg (by simp [hclear]), habove]
  rfl

theorem wordBits_eq_of_length_le (n : Nat) (w : BitVec 64) (h : (members w).length ≤ n) :
    wordBits n w = members w := by
  induction n generalizing w with
  | zero => exact (List.eq_nil_of_length_eq_zero (Nat.le_zero.mp h)).symm
  | succ n ih =>
      unfold wordBits
      split
      · next hw => subst hw; simp [members]
      · next hw =>
          rw [members_cons hw] at h ⊢
          rw [ih _ (Nat.le_of_succ_le_succ h)]

/-- Sixty-four rounds visit every set bit, in ascending order. -/
theorem wordBits_eq (w : BitVec 64) : wordBits 64 w = members w :=
  wordBits_eq_of_length_le 64 w
    ((List.length_filter_le _ _).trans_eq List.length_range)

/-- The population count of a word is the number of its members. -/
theorem toNat_cpop (w : BitVec 64) : w.cpop.toNat = (members w).length := by
  have hrec : ∀ n, w.cpopNatRec n 0 = ((List.range n).filter w.getLsbD).length := by
    intro n
    induction n with
    | zero => rfl
    | succ n ih =>
        rw [BitVec.cpopNatRec_succ, BitVec.cpopNatRec_add, ih, List.range_succ,
          List.filter_append, List.length_append]
        cases hb : w.getLsbD n <;> simp [hb]
  have hle : w.cpopNatRec 64 0 ≤ 64 := BitVec.cpopNatRec_zero_le w 64
  rw [BitVec.cpop, BitVec.toNat_ofNat, Nat.mod_eq_of_lt (by omega), hrec]
  rfl

/-- The member list of the words from word number `n` on. -/
def membersFrom : Nat → List (BitVec 64) → List Nat
  | _, [] => []
  | n, w :: ws => (members w).map (n * 64 + ·) ++ membersFrom (n + 1) ws

theorem forEach_eq (s : BitSet) : s.forEach = membersFrom 0 s.words := by
  have hgen : ∀ (ws : List (BitVec 64)) (n : Nat),
      (ws.mapIdx fun wi w => (wordBits 64 w).map ((wi + n) <<< 6 + ·)).flatten =
        membersFrom n ws := by
    intro ws
    induction ws with
    | nil => intro n; rfl
    | cons w ws ih =>
        intro n
        rw [List.mapIdx_cons, List.flatten_cons, membersFrom, wordBits_eq, Nat.zero_add,
          Nat.shiftLeft_eq, ← ih (n + 1)]
        simp only [Nat.add_assoc, Nat.add_comm 1 n]
  exact hgen s.words 0

/-- Member `i` of the words from number `n` on is a bit of one of them. -/
theorem mem_membersFrom (ws : List (BitVec 64)) (n i : Nat) :
    i ∈ membersFrom n ws ↔
      n * 64 ≤ i ∧ (ws[i / 64 - n]?.getD 0#64).getLsbD (i % 64) = true := by
  induction ws generalizing n with
  | nil => simp [membersFrom]
  | cons w ws ih =>
      simp only [membersFrom, List.mem_append, List.mem_map, members, List.mem_filter,
        List.mem_range, ih]
      constructor
      · rintro (⟨b, ⟨hb, hbit⟩, rfl⟩ | ⟨hle, hbit⟩)
        · refine ⟨by omega, ?_⟩
          rw [show (n * 64 + b) / 64 - n = 0 by omega, show (n * 64 + b) % 64 = b by omega]
          simpa using hbit
        · refine ⟨by omega, ?_⟩
          rw [show i / 64 - n = (i / 64 - (n + 1)) + 1 by omega]
          simpa using hbit
      · rintro ⟨hle, hbit⟩
        by_cases h : i / 64 = n
        · left
          refine ⟨i % 64, ⟨by omega, ?_⟩, by omega⟩
          simpa [h] using hbit
        · right
          refine ⟨by omega, ?_⟩
          rw [show i / 64 - n = (i / 64 - (n + 1)) + 1 by omega] at hbit
          simpa using hbit

theorem pairwise_members (w : BitVec 64) : (members w).Pairwise (· < ·) :=
  List.pairwise_lt_range.filter _

theorem pairwise_membersFrom (ws : List (BitVec 64)) (n : Nat) :
    (membersFrom n ws).Pairwise (· < ·) := by
  induction ws generalizing n with
  | nil => exact List.Pairwise.nil
  | cons w ws ih =>
      rw [membersFrom, List.pairwise_append]
      refine ⟨(pairwise_members w).map _ (fun a b h => by omega), ih (n + 1), ?_⟩
      intro a ha b hb
      obtain ⟨c, hc, rfl⟩ := List.mem_map.mp ha
      have hc64 : c < 64 := List.mem_range.mp (List.mem_filter.mp hc).1
      have hb' := ((mem_membersFrom ws (n + 1) b).mp hb).1
      omega

/-- `for_each` visits exactly the members. -/
@[simp] theorem mem_forEach (s : BitSet) (i : Nat) : i ∈ s.forEach ↔ s.test i = true := by
  rw [forEach_eq, mem_membersFrom, test_eq, wordIdx_eq, bitIdx_eq]
  simp

/-- `for_each` runs in strictly ascending order, so visits nothing twice. -/
theorem pairwise_forEach (s : BitSet) : s.forEach.Pairwise (· < ·) := by
  rw [forEach_eq]
  exact pairwise_membersFrom _ _

theorem nodup_forEach (s : BitSet) : s.forEach.Nodup :=
  (pairwise_forEach s).imp Nat.ne_of_lt

/-! ## the population counts -/

theorem count_eq (s : BitSet) : s.count = s.forEach.length := by
  have hgen : ∀ (ws : List (BitVec 64)) (n : Nat),
      (ws.map fun w => w.cpop.toNat).sum = (membersFrom n ws).length := by
    intro ws
    induction ws with
    | nil => intro n; rfl
    | cons w ws ih =>
        intro n
        rw [List.map_cons, List.sum_cons, ih (n + 1), toNat_cpop, membersFrom, List.length_append,
          List.length_map]
  rw [forEach_eq]
  exact hgen s.words 0

/-- The members common to two words. -/
theorem members_and (a b : BitVec 64) : members (a &&& b) = (members a).filter b.getLsbD := by
  rw [members, members, List.filter_filter]
  apply List.filter_congr
  intro i _
  rw [BitVec.getLsbD_and, Bool.and_comm]

/-- `count_and` counts the members of `s` that `o` contains too. -/
theorem countAnd_eq (s o : BitSet) : s.countAnd o = (s.forEach.filter o.test).length := by
  have hgen : ∀ (ws vs : List (BitVec 64)) (n : Nat) (p : Nat → Bool),
      (∀ i, p (n * 64 + i) = (vs[i / 64]?.getD 0#64).getLsbD (i % 64)) →
      (List.zipWith (fun a b => (a &&& b).cpop.toNat) ws vs).sum =
        ((membersFrom n ws).filter p).length := by
    intro ws
    induction ws with
    | nil => intro vs n p _; simp [membersFrom]
    | cons w ws ih =>
        intro vs n p hp
        cases vs with
        | nil =>
            have hnone : (membersFrom n (w :: ws)).filter p = [] := by
              rw [List.filter_eq_nil_iff]
              intro i hi
              have hle := ((mem_membersFrom _ n i).mp hi).1
              obtain ⟨d, rfl⟩ := Nat.exists_eq_add_of_le hle
              simp [hp d]
            rw [hnone]
            rfl
        | cons v vs =>
            have hhead : ((members w).map (n * 64 + ·)).filter p =
                (members (w &&& v)).map (n * 64 + ·) := by
              rw [List.filter_map, members_and]
              congr 1
              apply List.filter_congr
              intro i hi
              have hi64 : i < 64 := List.mem_range.mp (List.mem_filter.mp hi).1
              have h := hp i
              rw [Nat.div_eq_of_lt hi64, Nat.mod_eq_of_lt hi64] at h
              simpa using h
            have htail := ih vs (n + 1) p (fun i => by
              have h := hp (i + 64)
              rw [show (i + 64) / 64 = i / 64 + 1 by omega, show (i + 64) % 64 = i % 64 by omega,
                show n * 64 + (i + 64) = (n + 1) * 64 + i by omega] at h
              simpa using h)
            rw [membersFrom, List.filter_append, List.length_append, hhead, List.length_map,
              List.zipWith_cons_cons, List.sum_cons, toNat_cpop, htail]
  rw [forEach_eq]
  apply hgen
  intro i
  rw [test_eq, wordIdx_eq, bitIdx_eq, Nat.zero_mul, Nat.zero_add]

end BitSet

end GhostDag
