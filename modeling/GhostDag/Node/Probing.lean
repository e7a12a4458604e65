import GhostDag.Node.Mempool

/-!
# GhostDag.Node.Probing

The buckets that the two probing loops of the pool (`mempool.cc`) look into.

Of `n` buckets, each loop takes one going down and one going up a round, for
`n / 2 + 1` rounds.  Modulo `n` these are `a, a - 1, ..` and `a + 1, a + 2, ..`
from the drawn bucket `a`, and half of the circle either way is all of it
(`mem_probes_iff`).
-/

namespace GhostDag

namespace Mempool

/-- The buckets that a probing loop looks into one after another while they
are empty. -/
def probesBy (p : Mempool) (wrapUp : Nat → Nat) : Nat → Nat → Nat → List Nat
  | 0, _, _ => []
  | rounds + 1, downI, upI =>
      let downI := p.wrapDown downI
      let upI := wrapUp upI
      downI :: upI ::
        p.probesBy wrapUp rounds (if downI = 0 then 2 ^ 64 - 1 else downI - 1) (upI + 1)

/-- The buckets that `getRandomTransaction` may look into, from the drawn one. -/
def probes (p : Mempool) (index : Nat) : List Nat :=
  let index := index % p.arrSize
  p.probesBy p.wrapUp (p.arrSize / 2 + 1) index (if index = p.arrSize - 1 then 0 else index + 1)

/-- The probing index going up, as `eraseRandomTransactions` brings it back. -/
def wrapUpPast (p : Mempool) (i : Nat) : Nat := if p.arrSize - 1 < i then 0 else i

/-- The buckets that a round of `eraseRandomTransactions` may look into. -/
def eraseProbes (p : Mempool) (index : Nat) : List Nat :=
  let index := index % p.arrSize
  p.probesBy p.wrapUpPast (p.arrSize / 2 + 1) index (if index = p.arrSize - 1 then 0 else index + 1)

variable {p : Mempool}

/-! ## the loops search these buckets -/

theorem pickIn_eq_none_iff {i j : ℕ} : p.pickIn i j = none ↔ p.bucket i = [] := by
  rw [pickIn, Option.map_eq_none_iff, List.getElem?_eq_none_iff]
  constructor
  · intro hle
    by_contra hne
    exact absurd hle (not_le.mpr (Nat.mod_lt _ (List.length_pos_iff.mpr hne)))
  · intro hnil
    rw [hnil]
    exact Nat.zero_le _

theorem probe_eq (j rounds downI upI : ℕ) :
    p.probe j rounds downI upI =
      (p.probesBy p.wrapUp rounds downI upI).findSome? (p.pickIn · j) := by
  induction rounds generalizing downI upI with
  | zero => rfl
  | succ rounds ih =>
      rw [probe, probesBy, List.findSome?_cons, List.findSome?_cons]
      dsimp only
      rw [ih]
      cases p.pickIn (p.wrapDown downI) j with
      | some it => rfl
      | none => cases p.pickIn (p.wrapUp upI) j <;> rfl

/-- **`getRandomTransaction`** returns the first item that probing meets. -/
theorem getRandomTransaction_eq (p : Mempool) (index j : ℕ) :
    p.getRandomTransaction index j = (p.probes index).findSome? (p.pickIn · j) :=
  probe_eq j _ _ _

/-- Erase the item that probing has met. -/
def eraseFound (p : Mempool) : Option HtabIterator → Mempool
  | some it => p.eraseTransaction it
  | none => p

theorem eraseProbe_eq (j rounds downI upI : ℕ) :
    p.eraseProbe j rounds downI upI =
      p.eraseFound ((p.probesBy p.wrapUpPast rounds downI upI).findSome? (p.pickIn · j)) := by
  induction rounds generalizing downI upI with
  | zero => rfl
  | succ rounds ih =>
      rw [eraseProbe, probesBy, List.findSome?_cons, List.findSome?_cons]
      cases p.pickIn (p.wrapDown downI) j with
      | some it => rfl
      | none =>
          rw [wrapUpPast]
          dsimp only
          cases p.pickIn (if p.arrSize - 1 < upI then 0 else upI) j with
          | some it => rfl
          | none => exact ih _ _

/-- **A round of `eraseRandomTransactions`** erases the first item that
probing meets. -/
theorem eraseRandom_eq (p : Mempool) (draw : ℕ × ℕ) :
    p.eraseRandom draw = p.eraseFound ((p.eraseProbes draw.1).findSome? (p.pickIn · draw.2)) :=
  eraseProbe_eq draw.2 _ _ _

/-! ## these are all buckets -/

section Covering

variable (hpos : 0 < p.arrSize) (hn : p.arrSize < 2 ^ 31)
include hpos hn

omit hpos in
theorem wrapDown_of_lt {i : ℕ} (hi : i < p.arrSize) : p.wrapDown i = i := by
  rw [wrapDown, if_neg (by omega)]

omit hpos in
/-- Stepping down from a bucket, past `0` to the last one. -/
theorem wrapDown_pred {a : ℕ} (ha : a < p.arrSize) :
    p.wrapDown (if a = 0 then 2 ^ 64 - 1 else a - 1) = (a + p.arrSize - 1) % p.arrSize := by
  by_cases h0 : a = 0
  · rw [if_pos h0, wrapDown, if_pos rfl, h0, Nat.zero_add, Nat.mod_eq_of_lt (by omega)]
  · rw [if_neg h0, wrapDown_of_lt hn (by omega), show a + p.arrSize - 1 = a - 1 + p.arrSize by omega,
      Nat.add_mod_right, Nat.mod_eq_of_lt (by omega)]

/-- Probing looks into the buckets below `a` and above `b`, around the circle. -/
theorem probesBy_eq {wrapUp : ℕ → ℕ} (hup : ∀ b < p.arrSize, wrapUp (b + 1) = (b + 1) % p.arrSize)
    {rounds : ℕ} (hrounds : rounds ≤ p.arrSize) {a b downI upI : ℕ} (ha : a < p.arrSize)
    (hb : b < p.arrSize) (hdownI : p.wrapDown downI = a) (hupI : wrapUp upI = b) :
    p.probesBy wrapUp rounds downI upI = (List.range rounds).flatMap fun d =>
      [(a + p.arrSize - d) % p.arrSize, (b + d) % p.arrSize] := by
  induction rounds generalizing a b downI upI with
  | zero => rfl
  | succ rounds ih =>
      have hrest := ih (by omega) (Nat.mod_lt _ hpos) (Nat.mod_lt _ hpos) (wrapDown_pred hn ha)
        (hup b hb)
      have hfirst : [(a + p.arrSize - 0) % p.arrSize, (b + 0) % p.arrSize] = [a, b] := by
        rw [Nat.sub_zero, Nat.add_mod_right, Nat.add_zero, Nat.mod_eq_of_lt ha, Nat.mod_eq_of_lt hb]
      rw [probesBy, hdownI, hupI, hrest, List.range_succ_eq_map, List.flatMap_cons,
        List.flatMap_map, hfirst]
      refine congrArg ([a, b] ++ ·) (List.flatMap_congr fun d hd => ?_)
      have hd := List.mem_range.mp hd
      have hdown : ((a + p.arrSize - 1) % p.arrSize + p.arrSize - d) % p.arrSize =
          (a + p.arrSize - (d + 1)) % p.arrSize := by
        rw [Nat.add_sub_assoc (by omega), Nat.mod_add_mod,
          show a + p.arrSize - 1 + (p.arrSize - d) =
            a + p.arrSize - (d + 1) + p.arrSize by omega, Nat.add_mod_right]
      rw [hdown, Nat.mod_add_mod, Nat.add_assoc, Nat.add_comm 1]

/-- **Probing looks into every bucket**, and into nothing else. -/
theorem mem_probesBy_iff {wrapUp : ℕ → ℕ} (hzero : wrapUp 0 = 0)
    (hup : ∀ b < p.arrSize, wrapUp (b + 1) = (b + 1) % p.arrSize) {a : ℕ} (ha : a < p.arrSize)
    (k : ℕ) :
    k ∈ p.probesBy wrapUp (p.arrSize / 2 + 1) a (if a = p.arrSize - 1 then 0 else a + 1) ↔
      k < p.arrSize := by
  have hfirst : wrapUp (if a = p.arrSize - 1 then 0 else a + 1) = (a + 1) % p.arrSize := by
    by_cases hlast : a = p.arrSize - 1
    · rw [if_pos hlast, hzero, show a + 1 = p.arrSize by omega, Nat.mod_self]
    · rw [if_neg hlast, hup a ha]
  rw [probesBy_eq hpos hn hup (by omega) ha (Nat.mod_lt _ hpos) (wrapDown_of_lt hn ha) hfirst]
  simp only [List.mem_flatMap, List.mem_range, List.mem_cons, List.not_mem_nil, or_false]
  constructor
  · rintro ⟨d, -, rfl | rfl⟩
    · exact Nat.mod_lt _ hpos
    · exact Nat.mod_lt _ hpos
  · intro hk
    -- the distance down to `k`; one of the two cursors gets there in time
    obtain ⟨d, hd, hkd⟩ : ∃ d < p.arrSize, (a + p.arrSize - d) % p.arrSize = k := by
      by_cases hka : k ≤ a
      · refine ⟨a - k, by omega, ?_⟩
        rw [show a + p.arrSize - (a - k) = k + p.arrSize by omega, Nat.add_mod_right,
          Nat.mod_eq_of_lt hk]
      · refine ⟨a + p.arrSize - k, by omega, ?_⟩
        rw [show a + p.arrSize - (a + p.arrSize - k) = k by omega, Nat.mod_eq_of_lt hk]
    by_cases hhalf : d < p.arrSize / 2 + 1
    · exact ⟨d, hhalf, .inl hkd.symm⟩
    · refine ⟨p.arrSize - d - 1, by omega, .inr ?_⟩
      rw [Nat.mod_add_mod, show a + 1 + (p.arrSize - d - 1) = a + p.arrSize - d by omega, hkd]

theorem mem_probes_iff (index k : ℕ) : k ∈ p.probes index ↔ k < p.arrSize := by
  refine mem_probesBy_iff hpos hn ?_ (fun b hb => ?_) (Nat.mod_lt index hpos) k
  · rw [wrapUp, if_neg (by omega)]
  · rw [wrapUp]
    split
    · next heq => rw [heq, Nat.mod_self]
    · rw [Nat.mod_eq_of_lt (by omega)]

theorem mem_eraseProbes_iff (index k : ℕ) : k ∈ p.eraseProbes index ↔ k < p.arrSize := by
  refine mem_probesBy_iff hpos hn ?_ (fun b hb => ?_) (Nat.mod_lt index hpos) k
  · rw [wrapUpPast, if_neg (by omega)]
  · rw [wrapUpPast]
    split
    · rw [show b + 1 = p.arrSize by omega, Nat.mod_self]
    · rw [Nat.mod_eq_of_lt (by omega)]

end Covering

/-- A search that meets nothing has met empty buckets only. -/
theorem bucket_eq_nil_of_findSome? {l : List ℕ} {j : ℕ} (h : l.findSome? (p.pickIn · j) = none) :
    ∀ i ∈ l, p.bucket i = [] :=
  fun i hi => pickIn_eq_none_iff.mp (List.findSome?_eq_none_iff.mp h i hi)

end Mempool

end GhostDag
