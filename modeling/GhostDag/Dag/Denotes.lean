import GhostDag.Dag.BitSet
import GhostDag.Lib.Containers

/-!
# GhostDag.Dag.Denotes

Bit sets over insertion indices as finite sets of block ids: given the table
`ids` of ids in insertion order, `Denotes ids bs S` says that `bs` holds the
indices of the members of `S`.  Each bit-set operation denotes the set
operation of its name, and populations are cardinalities.
-/

namespace GhostDag

open Containers

/-- `bs` is the index form of `S` under the table `ids`. -/
structure Denotes (ids : List ℕ) (bs : BitSet) (S : Finset ℕ) : Prop where
  test : ∀ i, bs.test i = true ↔ ∃ a ∈ S, ids[i]? = some a
  mem : ∀ a ∈ S, a ∈ ids

/-- Distinct entries sit at distinct places. -/
theorem idx_unique {ids : List ℕ} (hnd : ids.Nodup) {i j a : ℕ} (hi : ids[i]? = some a)
    (hj : ids[j]? = some a) : i = j := by
  have hlt : i < ids.length := (List.getElem?_eq_some_iff.mp hi).1
  exact (List.getElem?_inj hlt hnd).mp (hi.trans hj.symm)

namespace Denotes

variable {ids : List ℕ} {bs bs' : BitSet} {S S' : Finset ℕ}

theorem test_iff (h : Denotes ids bs S) {i a : ℕ} (hi : ids[i]? = some a) :
    bs.test i = true ↔ a ∈ S := by
  rw [h.test]
  constructor
  · rintro ⟨b, hb, hib⟩
    rw [hi, Option.some.injEq] at hib
    exact hib ▸ hb
  · exact fun ha => ⟨a, ha, hi⟩

theorem congr (h : Denotes ids bs S) (hS : S = S') : Denotes ids bs S' := hS ▸ h

theorem empty : Denotes ids ∅ ∅ := ⟨fun i => by simp, fun a ha => absurd ha (Finset.notMem_empty a)⟩

theorem set (h : Denotes ids bs S) (hnd : ids.Nodup) {i a : ℕ} (hi : ids[i]? = some a) :
    Denotes ids (bs.set i) (insert a S) where
  test j := by
    simp only [BitSet.test_set, Bool.or_eq_true, decide_eq_true_eq, h.test j, Finset.mem_insert]
    constructor
    · rintro (rfl | ⟨b, hb, hj⟩)
      · exact ⟨a, .inl rfl, hi⟩
      · exact ⟨b, .inr hb, hj⟩
    · rintro ⟨b, rfl | hb, hj⟩
      · exact .inl (idx_unique hnd hj hi)
      · exact .inr ⟨b, hb, hj⟩
  mem b hb := by
    obtain rfl | hb := Finset.mem_insert.mp hb
    · exact List.mem_of_getElem? hi
    · exact h.mem b hb

theorem reset (h : Denotes ids bs S) (hnd : ids.Nodup) {i a : ℕ} (hi : ids[i]? = some a) :
    Denotes ids (bs.reset i) (S.erase a) where
  test j := by
    simp only [BitSet.test_reset, Bool.and_eq_true, decide_eq_true_eq, h.test j, Finset.mem_erase]
    constructor
    · rintro ⟨hne, b, hb, hj⟩
      refine ⟨b, ⟨?_, hb⟩, hj⟩
      rintro rfl
      exact hne (idx_unique hnd hj hi)
    · rintro ⟨b, ⟨hne, hb⟩, hj⟩
      refine ⟨?_, b, hb, hj⟩
      rintro rfl
      exact hne (Option.some.inj (hj.symm.trans hi))
  mem b hb := h.mem b (Finset.mem_of_mem_erase hb)

theorem or (h : Denotes ids bs S) (h' : Denotes ids bs' S') :
    Denotes ids (bs.or bs') (S ∪ S') where
  test j := by
    simp only [BitSet.test_or, Bool.or_eq_true, h.test j, h'.test j, Finset.mem_union]
    constructor
    · rintro (⟨b, hb, hj⟩ | ⟨b, hb, hj⟩)
      · exact ⟨b, .inl hb, hj⟩
      · exact ⟨b, .inr hb, hj⟩
    · rintro ⟨b, hb | hb, hj⟩
      · exact .inl ⟨b, hb, hj⟩
      · exact .inr ⟨b, hb, hj⟩
  mem b hb := (Finset.mem_union.mp hb).elim (h.mem b) (h'.mem b)

theorem andNot (h : Denotes ids bs S) (h' : Denotes ids bs' S') :
    Denotes ids (bs.andNot bs') (S \ S') where
  test j := by
    simp only [BitSet.test_andNot, Bool.and_eq_true, Bool.not_eq_true', h.test j,
      Finset.mem_sdiff]
    constructor
    · rintro ⟨⟨b, hb, hj⟩, hno⟩
      refine ⟨b, ⟨hb, fun hb' => ?_⟩, hj⟩
      rw [(h'.test_iff hj).mpr hb'] at hno
      exact Bool.noConfusion hno
    · rintro ⟨b, ⟨hb, hb'⟩, hj⟩
      refine ⟨⟨b, hb, hj⟩, ?_⟩
      rw [Bool.eq_false_iff]
      exact mt (h'.test_iff hj).mp hb'
  mem b hb := h.mem b (Finset.mem_sdiff.mp hb).1

/-- A new entry of the table leaves the sets without it alone. -/
theorem append (h : Denotes ids bs S) {x : ℕ} (hx : x ∉ S) : Denotes (ids ++ [x]) bs S where
  test i := by
    rw [h.test]
    constructor
    · rintro ⟨a, ha, hi⟩
      refine ⟨a, ha, ?_⟩
      rw [List.getElem?_append_left (List.getElem?_eq_some_iff.mp hi).1, hi]
    · rintro ⟨a, ha, hi⟩
      refine ⟨a, ha, ?_⟩
      by_cases hlt : i < ids.length
      · rwa [List.getElem?_append_left hlt] at hi
      · rw [List.getElem?_append_right (Nat.le_of_not_lt hlt), List.getElem?_singleton] at hi
        split at hi
        · rw [Option.some.injEq] at hi
          exact absurd (hi ▸ ha) hx
        · exact absurd hi.symm (Option.some_ne_none a)
  mem a ha := List.mem_append_left _ (h.mem a ha)

theorem getD_eq {i a : ℕ} (hi : ids[i]? = some a) : ids.getD i 0 = a := by
  rw [List.getD_eq_getElem?_getD, hi, Option.getD_some]

/-- The ids visited by `for_each` are the members. -/
theorem mem_map_forEach (h : Denotes ids bs S) (a : ℕ) :
    a ∈ bs.forEach.map (ids.getD · 0) ↔ a ∈ S := by
  rw [List.mem_map]
  constructor
  · rintro ⟨i, hi, rfl⟩
    obtain ⟨b, hb, hib⟩ := (h.test i).mp ((BitSet.mem_forEach bs i).mp hi)
    rwa [getD_eq hib]
  · intro ha
    obtain ⟨i, hi⟩ := List.mem_iff_getElem?.mp (h.mem a ha)
    exact ⟨i, (BitSet.mem_forEach bs i).mpr ((h.test_iff hi).mpr ha), getD_eq hi⟩

/-- Visiting some of the indices visits distinct ids. -/
theorem nodup_map_filter (h : Denotes ids bs S) (hnd : ids.Nodup) (p : ℕ → Bool) :
    ((bs.forEach.filter p).map (ids.getD · 0)).Nodup := by
  refine ((BitSet.nodup_forEach bs).filter p).map_on ?_
  intro i hi j hj hij
  obtain ⟨a, -, hia⟩ := (h.test i).mp ((BitSet.mem_forEach bs i).mp (List.mem_filter.mp hi).1)
  obtain ⟨b, -, hjb⟩ := (h.test j).mp ((BitSet.mem_forEach bs j).mp (List.mem_filter.mp hj).1)
  rw [getD_eq hia, getD_eq hjb] at hij
  exact idx_unique hnd hia (hij ▸ hjb)

/-- Sorting the visited ids lists the set in ascending order. -/
theorem insertionSort_map_forEach (h : Denotes ids bs S) (hnd : ids.Nodup) :
    (bs.forEach.map (ids.getD · 0)).insertionSort (· ≤ ·) = S.sort (· ≤ ·) := by
  have hmap := h.nodup_map_filter hnd fun _ => true
  rw [List.filter_true] at hmap
  exact insertionSort_eq_sort hmap h.mem_map_forEach

/-- Counting members by a test on indices counts them by the matching test
on ids. -/
theorem card_filter (h : Denotes ids bs S) (hnd : ids.Nodup) {p : ℕ → Bool} {q : ℕ → Prop}
    [DecidablePred q] (hpq : ∀ i a, ids[i]? = some a → (p i = true ↔ q a)) :
    (bs.forEach.filter p).length = (S.filter q).card := by
  have hset : S.filter q = ((bs.forEach.filter p).map (ids.getD · 0)).toFinset := by
    ext a
    rw [Finset.mem_filter, List.mem_toFinset, List.mem_map]
    constructor
    · rintro ⟨ha, hqa⟩
      obtain ⟨i, hi⟩ := List.mem_iff_getElem?.mp (h.mem a ha)
      refine ⟨i, List.mem_filter.mpr ⟨?_, (hpq i a hi).mpr hqa⟩, getD_eq hi⟩
      exact (BitSet.mem_forEach bs i).mpr ((h.test_iff hi).mpr ha)
    · rintro ⟨i, hi, rfl⟩
      obtain ⟨hmem, hpi⟩ := List.mem_filter.mp hi
      obtain ⟨a, ha, hia⟩ := (h.test i).mp ((BitSet.mem_forEach bs i).mp hmem)
      rw [getD_eq hia]
      exact ⟨ha, (hpq i a hia).mp hpi⟩
  rw [hset, List.toFinset_card_of_nodup (h.nodup_map_filter hnd p), List.length_map]

theorem countAnd (h : Denotes ids bs S) (h' : Denotes ids bs' S') (hnd : ids.Nodup) :
    bs.countAnd bs' = (S ∩ S').card := by
  rw [BitSet.countAnd_eq, h.card_filter hnd (q := (· ∈ S')) fun i a hi => h'.test_iff hi,
    Finset.filter_mem_eq_inter]

end Denotes

end GhostDag
