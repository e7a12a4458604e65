import GhostDag.Graphene.Leftover
import GhostDag.Graphene.MurmurHash
import GhostDag.Graphene.Recovery

/-!
# GhostDag.Graphene.PingPong

What `TryPingPong` says of the ids it strikes out.

The table of the first message lacks the candidates only, the one of the
answer lacks the missing ids as well.  So an id that the sender has added is in
the first table and not in the second one, and when the first one lists it, it
is struck out of both: then the second one has it with the other sign.  There
it may be listed, as an id outside the block, unless others hide it.  Which ids
hide each other is known from their entries (`Cores.hidden`), and so is when
the ids are classified correctly (`classifies_iff`).
-/

namespace GhostDag

open Std (ExtTreeSet)
open Containers

namespace GrapheneProtocol

open Cores Iblt

variable {murmurHash3 : ℕ → ℕ → ℕ} {rounds : ℕ} {st₀ : PingPong} {F₀ S₀ : ℕ →₀ ℤ}

/-! ## the calls of a game -/

/-- The tables keep their shapes, in either order. -/
theorem Rally.shapes {depth : ℕ} {st : PingPong} {F S : ℕ →₀ ℤ}
    (h : Rally murmurHash3 rounds st₀ F₀ S₀ depth st F S) :
    (st₀.first.SameShape st.first ∧ st₀.second.SameShape st.second) ∨
      st₀.first.SameShape st.second ∧ st₀.second.SameShape st.first := by
  induction h with
  | start => exact .inl ⟨⟨rfl, rfl⟩, rfl, rfl⟩
  | second _ _ _ _ hstrike ih =>
      obtain ⟨hfirst, hsecond⟩ := PingPong.shapes_of_strike hstrike
      refine ih.symm.imp (fun h => ?_) fun h => ?_
      · exact ⟨h.1.trans hsecond, h.2.trans hfirst⟩
      · exact ⟨h.1.trans hfirst, h.2.trans hsecond⟩
  | first _ _ _ _ _ hstrike ih =>
      obtain ⟨hfirst, hsecond⟩ := PingPong.shapes_of_strike hstrike
      refine ih.imp (fun h => ?_) fun h => ?_
      · exact ⟨h.1.trans hfirst, h.2.trans hsecond⟩
      · exact ⟨h.1.trans hsecond, h.2.trans hfirst⟩

theorem Rally.first_le {depth : ℕ} {st : PingPong} {F S : ℕ →₀ ℤ}
    (h : Rally murmurHash3 rounds st₀ F₀ S₀ depth st F S) :
    st.first.hashTableSize ≤ max st₀.first.hashTableSize st₀.second.hashTableSize := by
  obtain ⟨hshape, -⟩ | ⟨-, hshape⟩ := h.shapes
  · exact hshape.length.le.trans (le_max_left _ _)
  · exact hshape.length.le.trans (le_max_right _ _)

/-- A call is at most one deeper than the larger table. -/
theorem Rally.depth_le {depth : ℕ} {st : PingPong} {F S : ℕ →₀ ℤ}
    (h : Rally murmurHash3 rounds st₀ F₀ S₀ depth st F S) :
    depth ≤ max st₀.first.hashTableSize st₀.second.hashTableSize + 1 := by
  cases h with
  | start => exact Nat.zero_le _
  | second h hdepth => exact Nat.succ_le_succ (hdepth.trans h.first_le)
  | first h hdepth => exact Nat.succ_le_succ (hdepth.trans h.first_le)

/-! ## a game in turns -/

namespace PingPong

/-- What is left at a turn of the ids `B` of both tables, and of the ids `A`
that are in the first one only. -/
noncomputable abbrev hidden (murmurHash3 : ℕ → ℕ → ℕ) (st₀ : PingPong) (A B : Finset ℕ) (r : ℕ) :
    Finset ℕ × Finset ℕ :=
  Cores.hidden (st₀.first.HeldAt murmurHash3) (st₀.second.HeldAt murmurHash3) A B r

noncomputable abbrev kept (murmurHash3 : ℕ → ℕ → ℕ) (st₀ : PingPong) (A B : Finset ℕ) (r : ℕ) :
    Finset ℕ :=
  Cores.kept (st₀.first.HeldAt murmurHash3) (st₀.second.HeldAt murmurHash3) A B r

/-- An id of `A` that the first table has listed is not hidden in the second
one. -/
abbrev Returns (murmurHash3 : ℕ → ℕ → ℕ) (st₀ : PingPong) (A B : Finset ℕ) (r : ℕ) : Prop :=
  Cores.Returns (st₀.first.HeldAt murmurHash3) (st₀.second.HeldAt murmurHash3) A B r

open Classical in
/-- The depth of the call that lists the second table at a turn.  The first
call lists both tables if the second one gives nothing. -/
noncomputable def turn (murmurHash3 : ℕ → ℕ → ℕ) (st₀ : PingPong) (B : Finset ℕ) (r : ℕ) : ℕ :=
  if core (st₀.second.HeldAt murmurHash3) B = B then 2 * r - 1 else 2 * r

theorem turn_zero (B : Finset ℕ) : st₀.turn murmurHash3 B 0 = 0 := by
  unfold turn
  split <;> rfl

theorem turn_succ (B : Finset ℕ) {r : ℕ}
    (h : 0 < r ∨ ¬ core (st₀.second.HeldAt murmurHash3) B = B) :
    st₀.turn murmurHash3 B (r + 1) = st₀.turn murmurHash3 B r + 2 := by
  unfold turn
  split
  · next hB =>
      have := h.resolve_right (not_not.mpr hB)
      omega
  · omega

theorem turn_mono (murmurHash3 : ℕ → ℕ → ℕ) (st₀ : PingPong) (B : Finset ℕ) :
    Monotone (st₀.turn murmurHash3 B) := by
  intro r s hrs
  unfold turn
  split <;> omega

end PingPong

/-- The two tables when the second one is next: of the ids `A`, those in `U`
are still in the first one, and the others, with the other sign, in the second
one. -/
structure AtTurn (S₀ : ℕ →₀ ℤ) (A W U : Finset ℕ) (F S : ℕ →₀ ℤ) : Prop where
  first : ∀ x, F x = (if x ∈ W then S₀ x else 0) + if x ∈ U then 1 else 0
  second : ∀ x, S x = (if x ∈ W then S₀ x else 0) - if x ∈ A \ U then 1 else 0
  common : W ⊆ S₀.support
  added : U ⊆ A

namespace AtTurn

variable {A W U C : Finset ℕ} {F S E : ℕ →₀ ℤ} {ok : Bool} {positive negative : Listing}

theorem support_first (h : AtTurn S₀ A W U F S) (hA : ∀ x ∈ A, S₀ x = 0) : F.support = W ∪ U := by
  ext x
  have hW : x ∈ W → S₀ x ≠ 0 := fun hx => Finsupp.mem_support_iff.mp (h.common hx)
  rw [Finsupp.mem_support_iff, h.first, Finset.mem_union]
  by_cases hxU : x ∈ U
  · rw [if_neg fun hxW => hW hxW (hA x (h.added hxU)), if_pos hxU]
    exact iff_of_true one_ne_zero (.inr hxU)
  · rw [if_neg hxU, add_zero, ite_ne_right_iff]
    tauto

theorem support_second (h : AtTurn S₀ A W U F S) (hA : ∀ x ∈ A, S₀ x = 0) :
    S.support = W ∪ A \ U := by
  ext x
  have hW : x ∈ W → S₀ x ≠ 0 := fun hx => Finsupp.mem_support_iff.mp (h.common hx)
  rw [Finsupp.mem_support_iff, h.second, Finset.mem_union]
  by_cases hxU : x ∈ A \ U
  · rw [if_neg fun hxW => hW hxW (hA x (Finset.mem_sdiff.mp hxU).1), if_pos hxU]
    exact iff_of_true (by decide) (.inr hxU)
  · rw [if_neg hxU, sub_zero, ite_ne_right_iff]
    tauto

/-- What the second table leaves. -/
theorem strike_second (h : AtTurn S₀ A W U F S) (hlists : Lists S ok positive negative E)
    (hE : E.support = C) (hC : A \ U ⊆ C) :
    AtTurn S₀ A (W ∩ C) U (struck F positive negative) (struck S positive negative) := by
  have hEx := left_eq_ite hlists hE
  have hsame : ∀ x, E x = (if x ∈ W ∩ C then S₀ x else 0) - if x ∈ A \ U then 1 else 0 := by
    intro x
    rw [hEx, h.second]
    by_cases hxC : x ∈ C
    · simp only [if_pos hxC, Finset.mem_inter, and_iff_left hxC]
    · have hxU : x ∉ A \ U := fun hx => hxC (hC hx)
      simp only [if_neg hxU, Finset.mem_inter, hxC, and_false, if_false, sub_zero]
  rw [struck_self hlists, struck_other hlists]
  refine ⟨fun x => ?_, hsame, Finset.inter_subset_left.trans h.common, h.added⟩
  rw [Finsupp.add_apply, Finsupp.sub_apply, hsame, h.first, h.second]
  ring

/-- What the first table leaves. -/
theorem strike_first (h : AtTurn S₀ A W U F S) (hlists : Lists F ok positive negative E)
    (hE : E.support = C) :
    AtTurn S₀ A (W ∩ C) (U ∩ C) (struck F positive negative) (struck S positive negative) := by
  have hEx := left_eq_ite hlists hE
  have hsame : ∀ x, E x = (if x ∈ W ∩ C then S₀ x else 0) + if x ∈ U ∩ C then 1 else 0 := by
    intro x
    rw [hEx, h.first]
    by_cases hxC : x ∈ C
    · simp only [if_pos hxC, Finset.mem_inter, and_iff_left hxC]
    · simp only [Finset.mem_inter, hxC, and_false, if_false, add_zero]
  -- an id of `A` is in one of the tables
  have hA : ∀ V ⊆ A, ∀ x, (if x ∈ A \ V then (1 : ℤ) else 0) =
      (if x ∈ A then 1 else 0) - if x ∈ V then 1 else 0 := by
    intro V hV x
    by_cases hxV : x ∈ V
    · simp [hxV, hV hxV]
    · simp [hxV]
  have hsub : U ∩ C ⊆ A := Finset.inter_subset_left.trans h.added
  rw [struck_self hlists, struck_other hlists]
  refine ⟨hsame, fun x => ?_, Finset.inter_subset_left.trans h.common, hsub⟩
  rw [Finsupp.add_apply, Finsupp.sub_apply, hsame, h.first, h.second, hA U h.added, hA _ hsub]
  ring

end AtTurn

/-- What a table of the game lists: all but the core of its ids, so nothing if
they all hide each other. -/
theorem SignedTable.listed {t₀ t : Iblt} {D : ℕ →₀ ℤ} (h : SignedTable murmurHash3 t D)
    (ht : t.WellShaped) (hsigned : Signed D) (hshape : t₀.SameShape t) {ok : Bool}
    {positive negative : Listing}
    (hlist : t.listEntries false murmurHash3 rounds [] [] = .ok (ok, positive, negative)) :
    ∃ E, Lists D ok positive negative E ∧
      E.support = core (t₀.HeldAt murmurHash3) D.support ∧
      ((positive.isEmpty && negative.isEmpty) = true ↔ Stuck (t₀.HeldAt murmurHash3) D.support) := by
  obtain ⟨E, hlists, hcore, -⟩ := listEntries_core (Nat.zero_lt_of_lt ht.numHashes)
    ht.bucketsPerHash_pos h.encodes h.truthful hsigned hlist
  rw [hshape.heldAt] at hcore
  refine ⟨E, hlists, hcore, ?_⟩
  rw [← core_eq_self_iff, ← hcore]
  constructor
  · intro hnil
    obtain ⟨rfl, rfl⟩ := eq_nil_of_isEmpty hnil
    rw [← struck_self hlists, struck]
    simp [Listing.keys, ofIds]
  · intro hsame
    have hnone : ∀ {l : Listing}, (∀ x ∈ l.keys, D x ≠ 0 ∧ E x = 0) → l.isEmpty = true := by
      intro l hl
      rw [List.isEmpty_iff, List.eq_nil_iff_forall_not_mem]
      intro x hx
      obtain ⟨hD, hE⟩ := hl x.1 (List.mem_map_of_mem hx)
      rw [← Finsupp.mem_support_iff, ← hsame] at hD
      exact Finsupp.mem_support_iff.mp hD hE
    rw [Bool.and_eq_true]
    refine ⟨hnone fun x hx => ?_, hnone fun x hx => ?_⟩
    · obtain ⟨hD, hE⟩ := (hlists.mem_positive x).mp hx
      exact ⟨by omega, hE⟩
    · obtain ⟨hD, hE⟩ := (hlists.mem_negative x).mp hx
      exact ⟨by omega, hE⟩


/-- **A game at its start.**  The block is `T`; the second table stands for the
difference between it and the receiver's set, and the first one has the added
ids `A` too. -/
structure Starts (murmurHash3 : ℕ → ℕ → ℕ) (T A : Finset ℕ) (st₀ : PingPong) (F₀ S₀ : ℕ →₀ ℤ) :
    Prop where
  stands : st₀.Stands murmurHash3 F₀ S₀
  apart : Apart A F₀ S₀
  second : ∀ x ∈ A, S₀ x = 0
  added : A ⊆ T
  inside : ∀ x, S₀ x = 1 → x ∈ T
  outside : ∀ x, S₀ x = -1 → x ∉ T
  inBlock : st₀.inBlock = ∅
  notInBlock : st₀.notInBlock = ∅

/-- The ids that have been struck out are on the right sides. -/
def Placed (T : Finset ℕ) (st : PingPong) : Prop :=
  (∀ x ∈ st.inBlock, x ∈ T) ∧ ∀ x ∈ st.notInBlock, x ∉ T

section Turns

variable (murmurHash3) (T A : Finset ℕ) (st₀) (S₀)

/-- The second table is next: no id has come back so far. -/
structure OnSecond (r depth : ℕ) (st : PingPong) (F S : ℕ →₀ ℤ) : Prop where
  depth_eq : depth = st₀.turn murmurHash3 S₀.support r
  depth_le : depth ≤ st₀.second.hashTableSize + 1
  turns : AtTurn S₀ A (st₀.hidden murmurHash3 A S₀.support r).1
    (st₀.hidden murmurHash3 A S₀.support r).2 F S
  firstShape : st₀.first.SameShape st.first
  secondShape : st₀.second.SameShape st.second
  stuck : 0 < r → Stuck (st₀.first.HeldAt murmurHash3) F.support
  placed : Placed T st
  none : ∀ s < r, ¬ st₀.Returns murmurHash3 A S₀.support s

/-- The first table is next. -/
structure OnFirst (r depth : ℕ) (st : PingPong) (F S : ℕ →₀ ℤ) : Prop where
  depth_eq : depth = st₀.turn murmurHash3 S₀.support r + 1
  next : st₀.turn murmurHash3 S₀.support (r + 1) = depth + 1
  turns : AtTurn S₀ A (st₀.kept murmurHash3 A S₀.support r)
    (st₀.hidden murmurHash3 A S₀.support r).2 S F
  firstShape : st₀.first.SameShape st.second
  secondShape : st₀.second.SameShape st.first
  stuck : Stuck (st₀.second.HeldAt murmurHash3) F.support
  placed : Placed T st
  none : ∀ s ≤ r, ¬ st₀.Returns murmurHash3 A S₀.support s

/-- An added id has come back, at a depth that the game reaches. -/
def CameBack (st : PingPong) : Prop :=
  (∃ r, st₀.turn murmurHash3 S₀.support r ≤ st₀.first.hashTableSize ∧
    st₀.turn murmurHash3 S₀.support r ≤ st₀.second.hashTableSize + 1 ∧
    st₀.Returns murmurHash3 A S₀.support r) ∧ ∃ x ∈ T, x ∈ st.notInBlock

variable {murmurHash3 T A st₀ S₀} {r depth : ℕ} {st st' : PingPong} {F S E : ℕ →₀ ℤ} {ok : Bool}
  {positive negative : Listing}

theorem Placed.strike (h : Placed T st) (hstands : st.Stands murmurHash3 F S)
    (hpos : positive.keys.Nodup) (hneg : negative.keys.Nodup)
    (hstrike : st.strike false murmurHash3 positive negative = .ok st')
    (hin : ∀ x ∈ positive.keys, x ∈ T) (hout : ∀ x ∈ negative.keys, x ∉ T) : Placed T st' := by
  obtain ⟨-, hin', hnot'⟩ := hstands.of_strike hpos hneg hstrike
  constructor
  · intro x hx
    obtain hx | hx := (hin' x).mp hx
    · exact h.1 x hx
    · exact hin x hx
  · intro x hx
    obtain hx | hx := (hnot' x).mp hx
    · exact h.2 x hx
    · exact hout x hx

/-- An id that has come back stays on the wrong side. -/
theorem CameBack.strike (h : CameBack murmurHash3 st₀ S₀ T A st)
    (hstands : st.Stands murmurHash3 F S) (hpos : positive.keys.Nodup)
    (hneg : negative.keys.Nodup)
    (hstrike : st.strike false murmurHash3 positive negative = .ok st') :
    CameBack murmurHash3 st₀ S₀ T A st' := by
  obtain ⟨hreturns, x, hx, hmem⟩ := h
  obtain ⟨-, -, hnot'⟩ := hstands.of_strike hpos hneg hstrike
  exact ⟨hreturns, x, hx, (hnot' x).mpr (.inl hmem)⟩

variable (h₀ : Starts murmurHash3 T A st₀ F₀ S₀)

include h₀

theorem Starts.within : Within (F₀.support ∪ S₀.support) A F₀ S₀ :=
  ⟨.inl h₀.apart, Finset.subset_union_left, Finset.subset_union_right⟩

theorem Starts.onSecond : OnSecond murmurHash3 st₀ S₀ T A 0 0 st₀ F₀ S₀ := by
  constructor
  case depth_eq => exact (st₀.turn_zero S₀.support).symm
  case depth_le => exact Nat.zero_le _
  case turns =>
    refine ⟨fun x => ?_, fun x => ?_, subset_rfl, subset_rfl⟩
    · obtain ⟨hx, heq, -⟩ | ⟨hx, hFS⟩ := h₀.apart x
      · change F₀ x = (if x ∈ S₀.support then S₀ x else 0) + if x ∈ A then 1 else 0
        rw [if_neg hx, add_zero, heq]
        split
        · rfl
        · next hout => exact Finsupp.notMem_support_iff.mp hout
      · have hzero := h₀.second x hx
        change F₀ x = (if x ∈ S₀.support then S₀ x else 0) + if x ∈ A then 1 else 0
        rw [if_neg (Finsupp.notMem_support_iff.mpr hzero), if_pos hx, zero_add]
        omega
    · change S₀ x = (if x ∈ S₀.support then S₀ x else 0) - if x ∈ A \ A then 1 else 0
      rw [Finset.sdiff_self, if_neg (Finset.notMem_empty x), sub_zero]
      split
      · rfl
      · next hout => exact Finsupp.notMem_support_iff.mp hout
  case firstShape => exact ⟨rfl, rfl⟩
  case secondShape => exact ⟨rfl, rfl⟩
  case stuck => exact fun h => absurd h (lt_irrefl 0)
  case placed =>
    constructor
    · rw [h₀.inBlock]
      exact fun x hx => absurd hx ExtTreeSet.not_mem_empty
    · rw [h₀.notInBlock]
      exact fun x hx => absurd hx ExtTreeSet.not_mem_empty
  case none => exact fun s hs => absurd hs (Nat.not_lt_zero s)

omit h₀ in
/-- What the second table lists is on the right side, if it lists no added id. -/
theorem AtTurn.placed_second (h₀ : Starts murmurHash3 T A st₀ F₀ S₀) {W U : Finset ℕ}
    (h : AtTurn S₀ A W U F S) (hlists : Lists S ok positive negative E)
    (hsub : A \ U ⊆ E.support) :
    (∀ x ∈ positive.keys, x ∈ T) ∧ ∀ x ∈ negative.keys, x ∉ T := by
  constructor
  · intro x hx
    have hSx := ((hlists.mem_positive x).mp hx).1
    rw [h.second] at hSx
    refine h₀.inside x ?_
    by_cases hxU : x ∈ A \ U
    · rw [h₀.second x (Finset.mem_sdiff.mp hxU).1, ite_self, if_pos hxU] at hSx
      omega
    · rw [if_neg hxU, sub_zero] at hSx
      split at hSx <;> omega
  · intro x hx
    obtain ⟨hSx, hE⟩ := (hlists.mem_negative x).mp hx
    have hxU : x ∉ A \ U := fun hxU => Finsupp.mem_support_iff.mp (hsub hxU) hE
    rw [h.second, if_neg hxU, sub_zero] at hSx
    refine h₀.outside x ?_
    split at hSx <;> omega

/-- **The second table is listed**: an id comes back, or the first one is next. -/
theorem OnSecond.strike_second (h : OnSecond murmurHash3 st₀ S₀ T A r depth st F S)
    (hstands : st.Stands murmurHash3 F S) (hsigned : SignedTable murmurHash3 st.second S)
    (hS : Signed S) (hdepth : depth ≤ st.first.hashTableSize)
    (hlist : st.second.listEntries false murmurHash3 rounds [] [] = .ok (ok, positive, negative))
    (hne : ¬ (positive.isEmpty && negative.isEmpty) = true)
    (hstrike : st.strike false murmurHash3 positive negative = .ok st') :
    CameBack murmurHash3 st₀ S₀ T A st' ∨
      OnFirst murmurHash3 st₀ S₀ T A r (depth + 1) st'.swap
        (struck S positive negative) (struck F positive negative) := by
  obtain ⟨E, hlists, hcore, hnil⟩ := hsigned.listed hstands.secondShaped hS h.secondShape hlist
  have hsupport := h.turns.support_second h₀.second
  rw [hsupport] at hcore hnil
  obtain ⟨hfirst, hsecond⟩ := PingPong.shapes_of_strike hstrike
  by_cases hreturns : st₀.Returns murmurHash3 A S₀.support r
  · left
    refine ⟨⟨r, ?_, ?_, hreturns⟩, ?_⟩
    · rw [← h.depth_eq]
      exact hdepth.trans h.firstShape.length.le
    · rw [← h.depth_eq]
      exact h.depth_le
    · obtain ⟨x, hx, hout⟩ := Finset.not_subset.mp hreturns
      change x ∉ core _ _ at hout
      have hA := (Finset.mem_sdiff.mp hx).1
      have hSx : S x = -1 := by
        rw [h.turns.second, if_pos hx, h₀.second x hA]
        simp
      rw [shown, ← hcore, Finsupp.notMem_support_iff] at hout
      obtain ⟨-, -, hnot'⟩ :=
        hstands.of_strike hlists.nodup_positive hlists.nodup_negative hstrike
      exact ⟨x, h₀.added hA, (hnot' x).mpr (.inr ((hlists.mem_negative x).mpr ⟨hSx, hout⟩))⟩
  · right
    have hturns := h.turns.strike_second hlists hcore (not_not.mp hreturns)
    have hsub : A \ (st₀.hidden murmurHash3 A S₀.support r).2 ⊆ E.support := by
      rw [hcore]
      exact not_not.mp hreturns
    obtain ⟨hin, hout⟩ := h.turns.placed_second h₀ hlists hsub
    have hplaced : Placed T st' :=
      h.placed.strike hstands hlists.nodup_positive hlists.nodup_negative hstrike hin hout
    constructor
    case depth_eq => rw [h.depth_eq]
    case next =>
      rw [PingPong.turn_succ, ← h.depth_eq]
      by_cases hr : 0 < r
      · exact .inl hr
      · obtain rfl := Nat.eq_zero_of_not_pos hr
        refine .inr fun hB => hne (hnil.mpr (core_eq_self_iff.mp ?_))
        change core _ (S₀.support ∪ A \ A) = S₀.support ∪ A \ A
        rw [Finset.sdiff_self, Finset.union_empty]
        exact hB
    case turns => exact hturns
    case firstShape => exact h.firstShape.trans hfirst
    case secondShape => exact h.secondShape.trans hsecond
    case stuck =>
      rw [struck_self hlists, hcore]
      exact stuck_core
    case placed => exact hplaced
    case none =>
      intro s hs
      obtain hlt | rfl := hs.lt_or_eq
      · exact h.none s hlt
      · exact hreturns

omit h₀ in
/-- What the first table lists is on the right side. -/
theorem AtTurn.placed_first (h₀ : Starts murmurHash3 T A st₀ F₀ S₀) {W U : Finset ℕ}
    (h : AtTurn S₀ A W U F S) (hlists : Lists F ok positive negative E) :
    (∀ x ∈ positive.keys, x ∈ T) ∧ ∀ x ∈ negative.keys, x ∉ T := by
  constructor
  · intro x hx
    have hFx := ((hlists.mem_positive x).mp hx).1
    by_cases hxU : x ∈ U
    · exact h₀.added (h.added hxU)
    · rw [h.first, if_neg hxU, add_zero] at hFx
      refine h₀.inside x ?_
      split at hFx <;> omega
  · intro x hx
    have hFx := ((hlists.mem_negative x).mp hx).1
    refine h₀.outside x ?_
    rw [h.first] at hFx
    by_cases hxU : x ∈ U
    · have hzero := h₀.second x (h.added hxU)
      rw [hzero, ite_self, if_pos hxU] at hFx
      omega
    · rw [if_neg hxU, add_zero] at hFx
      split at hFx <;> omega

/-- **The first table is listed**, and the second one is next. -/
theorem OnFirst.strike_second (h : OnFirst murmurHash3 st₀ S₀ T A r depth st F S)
    (hstands : st.Stands murmurHash3 F S) (hsigned : SignedTable murmurHash3 st.second S)
    (hS : Signed S) (hdepth : depth ≤ st.first.hashTableSize)
    (hlist : st.second.listEntries false murmurHash3 rounds [] [] = .ok (ok, positive, negative))
    (hstrike : st.strike false murmurHash3 positive negative = .ok st') :
    OnSecond murmurHash3 st₀ S₀ T A (r + 1) (depth + 1) st'.swap
      (struck S positive negative) (struck F positive negative) := by
  obtain ⟨E, hlists, hcore, -⟩ := hsigned.listed hstands.secondShaped hS h.firstShape hlist
  rw [h.turns.support_first h₀.second] at hcore
  obtain ⟨hfirst, hsecond⟩ := PingPong.shapes_of_strike hstrike
  obtain ⟨hin, hout⟩ := h.turns.placed_first h₀ hlists
  have hplaced : Placed T st' :=
    h.placed.strike hstands hlists.nodup_positive hlists.nodup_negative hstrike hin hout
  constructor
  case depth_eq => exact h.next.symm
  case depth_le => exact Nat.succ_le_succ (hdepth.trans h.secondShape.length.le)
  case turns => exact h.turns.strike_first hlists hcore
  case firstShape => exact h.firstShape.trans hsecond
  case secondShape => exact h.secondShape.trans hfirst
  case stuck =>
    rw [struck_self hlists, hcore]
    exact fun _ => stuck_core
  case placed => exact hplaced
  case none => exact fun s hs => h.none s (Nat.le_of_lt_succ hs)

/-- The first call lists both tables, if the second one gives nothing. -/
theorem OnSecond.strike_first (h : OnSecond murmurHash3 st₀ S₀ T A r depth st F S)
    (hstands : st.Stands murmurHash3 F S) (hsigned : SignedTable murmurHash3 st.first F)
    (hsigned' : SignedTable murmurHash3 st.second S) (hF : Signed F) (hS : Signed S) {ok' : Bool}
    (hlist : st.second.listEntries false murmurHash3 rounds [] [] = .ok (ok, [], []))
    (hlist' : st.first.listEntries false murmurHash3 rounds [] [] = .ok (ok', positive, negative))
    (hne : ¬ (positive.isEmpty && negative.isEmpty) = true)
    (hstrike : st.strike false murmurHash3 positive negative = .ok st') :
    OnSecond murmurHash3 st₀ S₀ T A 1 (depth + 1) st'
      (struck F positive negative) (struck S positive negative) := by
  obtain ⟨-, -, -, hnil⟩ := hsigned'.listed hstands.secondShaped hS h.secondShape hlist
  obtain ⟨E, hlists, hcore, hnil'⟩ := hsigned.listed hstands.firstShaped hF h.firstShape hlist'
  have hr : r = 0 := by
    by_contra hr
    exact hne (hnil'.mpr (h.stuck (Nat.pos_of_ne_zero hr)))
  subst hr
  have hB : core (st₀.second.HeldAt murmurHash3) S₀.support = S₀.support := by
    have hstuck := hnil.mp rfl
    rw [h.turns.support_second h₀.second] at hstuck
    change Stuck _ (S₀.support ∪ A \ A) at hstuck
    rw [Finset.sdiff_self, Finset.union_empty] at hstuck
    exact core_eq_self_iff.mpr hstuck
  have hkept : st₀.kept murmurHash3 A S₀.support 0 = S₀.support := by
    change S₀.support ∩ core _ (S₀.support ∪ A \ A) = S₀.support
    rw [Finset.sdiff_self, Finset.union_empty, hB, Finset.inter_self]
  rw [h.turns.support_first h₀.second] at hcore
  obtain ⟨hfirst, hsecond⟩ := PingPong.shapes_of_strike hstrike
  obtain ⟨hin, hout⟩ := h.turns.placed_first h₀ hlists
  have hzero : depth = 0 := h.depth_eq.trans (st₀.turn_zero S₀.support)
  subst hzero
  constructor
  case depth_eq => rw [PingPong.turn, if_pos hB]
  case depth_le => omega
  case turns =>
    have hturns := h.turns.strike_first hlists hcore
    rw [PingPong.hidden, hidden_succ]
    change AtTurn S₀ A (st₀.kept murmurHash3 A S₀.support 0 ∩
      core _ (st₀.kept murmurHash3 A S₀.support 0 ∪ A)) (A ∩
      core _ (st₀.kept murmurHash3 A S₀.support 0 ∪ A)) _ _
    rw [hkept]
    exact hturns
  case firstShape => exact h.firstShape.trans hfirst
  case secondShape => exact h.secondShape.trans hsecond
  case stuck =>
    rw [struck_self hlists, hcore]
    exact fun _ => stuck_core
  case placed =>
    exact h.placed.strike hstands hlists.nodup_positive hlists.nodup_negative hstrike hin hout
  case none =>
    -- at the first turn the second table has no added id
    intro s hs
    obtain rfl : s = 0 := by omega
    change ¬ ¬ A \ A ⊆ _
    rw [Finset.sdiff_self, not_not]
    exact Finset.empty_subset _

/-- **Every call of the game** is at one of its turns, unless an id has come
back. -/
theorem Starts.rally (hsigned : AllSigned murmurHash3 rounds st₀ F₀ S₀)
    (h : Rally murmurHash3 rounds st₀ F₀ S₀ depth st F S) :
    CameBack murmurHash3 st₀ S₀ T A st ∨ (∃ r, OnSecond murmurHash3 st₀ S₀ T A r depth st F S) ∨
      ∃ r, OnFirst murmurHash3 st₀ S₀ T A r depth st F S := by
  have hsigns : ∀ {depth st F S}, Rally murmurHash3 rounds st₀ F₀ S₀ depth st F S →
      Signed F ∧ Signed S := fun h => (h₀.within.rally h₀.stands hsigned h).signed
  induction h with
  | start => exact .inr (.inl ⟨0, h₀.onSecond⟩)
  | @second depth st st' F S ok positive negative h hdepth hlist hne hstrike ih =>
      have hstands := h.stands hsigned h₀.stands
      obtain ⟨-, hsecond⟩ := hsigned _ _ _ _ h
      obtain ⟨E, hlists⟩ := hsecond.lists hstands.secondShaped hlist
      obtain hback | ⟨r, hr⟩ | ⟨r, hr⟩ := ih
      · have hback' :=
          hback.strike hstands hlists.nodup_positive hlists.nodup_negative hstrike
        exact .inl hback'
      · exact (hr.strike_second h₀ hstands hsecond (hsigns h).2 hdepth hlist hne hstrike).imp id
          fun hnext => .inr ⟨r, hnext⟩
      · exact .inr (.inl ⟨r + 1,
          hr.strike_second h₀ hstands hsecond (hsigns h).2 hdepth hlist hstrike⟩)
  | @first depth st st' F S ok ok' positive negative h hdepth hlist hlist' hne hstrike ih =>
      have hstands := h.stands hsigned h₀.stands
      obtain ⟨hfirst, hsecond⟩ := hsigned _ _ _ _ h
      obtain ⟨E, hlists⟩ := hfirst.lists hstands.firstShaped hlist'
      obtain hback | ⟨r, hr⟩ | ⟨r, hr⟩ := ih
      · exact .inl (hback.strike hstands hlists.nodup_positive hlists.nodup_negative hstrike)
      · exact .inr (.inl ⟨1, hr.strike_first h₀ hstands hfirst hsecond (hsigns h).1 (hsigns h).2
          hlist hlist' hne hstrike⟩)
      · -- the second table has just been listed
        obtain ⟨-, -, -, hnil⟩ :=
          hfirst.listed hstands.firstShaped (hsigns h).1 hr.secondShape hlist'
        exact absurd (hnil.mpr hr.stuck) hne

/-- **Where the game ends**: an id has come back, or none ever does at a depth
that the game reaches. -/
theorem Starts.over (hsigned : AllSigned murmurHash3 rounds st₀ F₀ S₀) {status : DecodeStatus}
    (h : Rally murmurHash3 rounds st₀ F₀ S₀ depth st F S)
    (hover : Over murmurHash3 rounds depth st status) :
    CameBack murmurHash3 st₀ S₀ T A st ∨ Placed T st ∧
      ∀ r, st₀.turn murmurHash3 S₀.support r ≤ st₀.first.hashTableSize →
        st₀.turn murmurHash3 S₀.support r ≤ st₀.second.hashTableSize + 1 →
        ¬ st₀.Returns murmurHash3 A S₀.support r := by
  have hsigns : Signed F ∧ Signed S := (h₀.within.rally h₀.stands hsigned h).signed
  have hstands := h.stands hsigned h₀.stands
  obtain ⟨hfirst, hsecond⟩ := hsigned _ _ _ _ h
  refine (h₀.rally hsigned h).imp_right ?_
  rintro (⟨r, hr⟩ | ⟨r, hr⟩)
  · refine ⟨hr.placed, fun s hs hs' => ?_⟩
    cases hover with
    | deep hdeep =>
        refine hr.none s ?_
        by_contra hle
        have hmono := PingPong.turn_mono murmurHash3 st₀ S₀.support
          (not_lt.mp hle)
        have hlength := hr.firstShape.length
        have hdepth := hr.depth_eq
        unfold hashTableSize at hdeep hs
        omega
    | done hlist hlist' =>
        obtain ⟨-, -, -, hnil⟩ := hsecond.listed hstands.secondShaped hsigns.2 hr.secondShape hlist
        obtain ⟨-, -, -, hnil'⟩ := hfirst.listed hstands.firstShaped hsigns.1 hr.firstShape hlist'
        have hstuck := hnil.mp rfl
        have hstuck' := hnil'.mp rfl
        rw [hr.turns.support_second h₀.second] at hstuck
        rw [hr.turns.support_first h₀.second] at hstuck'
        by_cases hlt : s < r
        · exact hr.none s hlt
        · exact not_returns_of_stuck hstuck hstuck' (not_lt.mp hlt)
  · refine ⟨hr.placed, fun s hs hs' => ?_⟩
    cases hover with
    | deep hdeep =>
        refine hr.none s ?_
        by_contra hle
        have hmono := PingPong.turn_mono murmurHash3 st₀ S₀.support
          (Nat.succ_le_of_lt (not_le.mp hle))
        have hlength := hr.secondShape.length
        have hnext := hr.next
        unfold hashTableSize at hdeep hs'
        rw [Nat.succ_eq_add_one] at hmono
        omega
    | done hlist hlist' =>
        by_cases hle : s ≤ r
        · exact hr.none s hle
        · -- both tables are as they will be at the next turn
          obtain ⟨-, -, -, hnil⟩ :=
            hsecond.listed hstands.secondShaped hsigns.2 hr.firstShape hlist
          have hstuck := hnil.mp rfl
          rw [hr.turns.support_first h₀.second] at hstuck
          have hstuck' := hr.stuck
          rw [hr.turns.support_second h₀.second] at hstuck'
          exact not_returns_of_stuck_kept hstuck' hstuck (not_le.mp hle)

end Turns

/-! ## the classification -/

/-- The ids that the sender adds to the candidates. -/
def added (candidates : ExtTreeSet ℕ) (missing : List ℕ) : Finset ℕ :=
  missing.toFinset \ idFinset candidates

/-- What a recovery has at hand: the difference from the first message, an
honest answer and the difference from that.  The tables that come up are signed
sets of ids, and the tests are truthful on them.  Up to the size that survives
a `float` the differences are what they should be. -/
structure Recovers (murmurHash3 : ℕ → ℕ → ℕ) (b : Block) (candidates : ExtTreeSet ℕ)
    (response : RecoveryResponse) (st₀ : PingPong) : Prop where
  first : ∃ arith m bf iblt,
    buildSenderComponents false murmurHash3 arith b.txs m = .ok (some (bf, iblt)) ∧
      differenceTable false murmurHash3 iblt candidates = .ok st₀.first ∧
      (2 ^ 24 ≤ iblt.hashTable.length → st₀.first.Encodes murmurHash3 (symDiff b.txs candidates))
  answer : ∃ request : RecoveryRequest, 0 < (request.b + request.yStar).toInt ∧
    recoveryResponse false murmurHash3 b request = .ok response
  second : differenceTable false murmurHash3 response.iblt
    (addMissing candidates response.missing) = .ok st₀.second
  large : 2 ^ 24 ≤ response.iblt.hashTable.length → st₀.second.Encodes murmurHash3
    (symDiff b.txs (addMissing candidates response.missing))
  inBlock : st₀.inBlock = ∅
  notInBlock : st₀.notInBlock = ∅
  truthful : ∀ rounds, AllTruthful murmurHash3 rounds st₀ (symDiff b.txs candidates)
    (symDiff b.txs (addMissing candidates response.missing))

/-- **Ids are classified correctly**: whenever the direct decoding fails, the
ids that `TryPingPong` has put into `in_block` are in the block, and those in
`not_in_block` are not. -/
def Classifies (murmurHash3 : ℕ → ℕ → ℕ) (b : Block) (candidates : ExtTreeSet ℕ)
    (response : RecoveryResponse) (st₀ : PingPong) : Prop :=
  ∀ rounds, reconstructRecoveryBlock false murmurHash3 rounds response candidates =
      .ok (.failFatal, addMissing candidates response.missing) →
    ∀ status st, tryPingPong false murmurHash3 rounds
        (max st₀.first.hashTableSize st₀.second.hashTableSize + 2) st₀ 0 = .ok (status, st) →
      (∀ x ∈ st.inBlock, x ∈ b.txs.idSet) ∧ ∀ x ∈ st.notInBlock, x ∉ b.txs.idSet

/-- **No added id comes back.**  Either the second table hides none of the ids
that it is about, so that the direct decoding succeeds, or it hides all the
added ids that the first one has listed, at every turn for which the tables are
large enough.  Of the tables only the sizes and the hashes matter. -/
def NoneReturns (murmurHash3 : ℕ → ℕ → ℕ) (b : Block) (candidates : ExtTreeSet ℕ)
    (response : RecoveryResponse) (st₀ : PingPong) : Prop :=
  let A := added candidates response.missing
  let B := (symDiff b.txs (addMissing candidates response.missing)).support
  core (st₀.second.HeldAt murmurHash3) B = ∅ ∨
    ∀ r, st₀.turn murmurHash3 B r ≤ st₀.first.hashTableSize →
      st₀.turn murmurHash3 B r ≤ st₀.second.hashTableSize + 1 → ¬ st₀.Returns murmurHash3 A B r

theorem mem_addMissing {Z : ExtTreeSet ℕ} {missing : List ℕ} {x : ℕ} :
    x ∈ addMissing Z missing ↔ x ∈ Z ∨ x ∈ missing := by
  rw [addMissing, mem_foldl_set_insert]
  simp only [exists_eq_right']

theorem mem_added {candidates : ExtTreeSet ℕ} {missing : List ℕ} {x : ℕ} :
    x ∈ added candidates missing ↔ x ∈ missing ∧ x ∉ candidates := by
  rw [added, Finset.mem_sdiff, List.mem_toFinset, mem_idFinset]

theorem symDiff_apply {txs : TxSet} {ids : ExtTreeSet ℕ} {x : ℕ} :
    symDiff txs ids x = (if x ∈ txs.idSet then 1 else 0) - if x ∈ idFinset ids then 1 else 0 := by
  rw [symDiff, Finsupp.sub_apply, ofIds_apply, ofIds_apply]

/-- The two differences of a recovery. -/
theorem apart_added {txs : TxSet} {candidates : ExtTreeSet ℕ} {missing : List ℕ}
    (hmissing : ∀ x ∈ missing, x ∈ txs.idSet) :
    Apart (added candidates missing) (symDiff txs candidates)
      (symDiff txs (addMissing candidates missing)) := by
  intro x
  rw [mem_added, symDiff_apply, symDiff_apply]
  simp only [mem_idFinset, mem_addMissing]
  by_cases hx : x ∈ missing
  · rw [if_pos (hmissing x hx), if_pos (Or.inr hx)]
    by_cases hc : x ∈ candidates
    · exact .inl ⟨fun hA => hA.2 hc, by rw [if_pos hc], .inl rfl⟩
    · exact .inr ⟨⟨hx, hc⟩, .inl ⟨by rw [if_neg hc]; rfl, rfl⟩⟩
  · refine .inl ⟨fun hA => hx hA.1, by simp [hx], ?_⟩
    split <;> split <;> simp

theorem within_added {txs : TxSet} {candidates : ExtTreeSet ℕ} {missing : List ℕ}
    (hmissing : ∀ x ∈ missing, x ∈ txs.idSet) :
    Within (txs.idSet ∪ idFinset candidates) (added candidates missing) (symDiff txs candidates)
      (symDiff txs (addMissing candidates missing)) := by
  refine ⟨.inl (apart_added hmissing), fun x hx => ?_, fun x hx => ?_⟩
  all_goals
    by_contra hout
    obtain ⟨hb, hc⟩ := not_or.mp fun h => hout (Finset.mem_union.mpr h)
    refine Finsupp.mem_support_iff.mp hx ?_
    rw [symDiff_apply, if_neg hb, if_neg, sub_zero]
  · exact hc
  · rw [mem_idFinset] at hc ⊢
    exact fun h => (mem_addMissing.mp h).elim hc fun hx => hb (hmissing x hx)

/-- If nothing is added, nothing comes back. -/
theorem noneReturns_of_subset {b : Block} {candidates : ExtTreeSet ℕ} {response : RecoveryResponse}
    (hsame : ∀ x ∈ response.missing, x ∈ candidates) :
    NoneReturns murmurHash3 b candidates response st₀ := by
  have hempty : added candidates response.missing = ∅ := by
    refine Finset.eq_empty_of_forall_notMem fun x hx => ?_
    obtain ⟨hx, hout⟩ := mem_added.mp hx
    exact hout (hsame x hx)
  refine .inr fun r _ _ => ?_
  rw [hempty]
  exact not_returns_empty

namespace Recovers

variable {b : Block} {candidates : ExtTreeSet ℕ} {response : RecoveryResponse}

/-- **A recovery starts a game.** -/
theorem starts (h : Recovers murmurHash3 b candidates response st₀) (hkeyed : b.txs.Keyed) :
    Starts murmurHash3 b.txs.idSet (added candidates response.missing) st₀
      (symDiff b.txs candidates) (symDiff b.txs (addMissing candidates response.missing)) := by
  obtain ⟨arith, m, bf, iblt, hbuild, hdiff1, hlarge⟩ := h.first
  obtain ⟨request, hpos, hresponse⟩ := h.answer
  obtain ⟨hJshaped, hJencodes, -, hmissing⟩ := recoveryResponse_spec hkeyed hpos hresponse
  obtain ⟨hshaped, hencodes⟩ := buildSenderComponents_spec hkeyed hbuild
  constructor
  case stands =>
    exact ⟨differenceTable_wellShaped hshaped hdiff1, differenceTable_wellShaped hJshaped h.second,
      encodes_differenceTable hencodes hshaped hdiff1 hlarge,
      encodes_differenceTable hJencodes hJshaped h.second h.large⟩
  case apart => exact apart_added hmissing
  case second =>
    intro x hx
    obtain ⟨hx, -⟩ := mem_added.mp hx
    rw [symDiff_apply, if_pos (hmissing x hx), if_pos (mem_idFinset.mpr (mem_addMissing.mpr (.inr hx)))]
    rfl
  case added => exact fun x hx => hmissing x (mem_added.mp hx).1
  case inside => exact fun x hx => (ofIds_sub_eq_one.mp hx).1
  case outside => exact fun x hx => (ofIds_sub_eq_neg_one.mp hx).2
  case inBlock => exact h.inBlock
  case notInBlock => exact h.notInBlock

theorem allSigned (h : Recovers murmurHash3 b candidates response st₀) (hkeyed : b.txs.Keyed)
    (rounds : ℕ) : AllSigned murmurHash3 rounds st₀ (symDiff b.txs candidates)
      (symDiff b.txs (addMissing candidates response.missing)) :=
  (h.truthful rounds).allSigned (h.starts hkeyed).stands

/-- **The direct decoding** fails if the second table hides some of its ids. -/
theorem direct (h : Recovers murmurHash3 b candidates response st₀) (hkeyed : b.txs.Keyed)
    {ok : Bool} {positive negative : Listing} (hlist : st₀.second.listEntries false murmurHash3 rounds
      [] [] = .ok (ok, positive, negative)) :
    reconstructRecoveryBlock false murmurHash3 rounds response candidates =
        .ok (.failFatal, addMissing candidates response.missing) ↔
      core (st₀.second.HeldAt murmurHash3)
        (symDiff b.txs (addMissing candidates response.missing)).support ≠ ∅ := by
  have hstarts := h.starts hkeyed
  have hshaped := hstarts.stands.secondShaped
  obtain ⟨-, hsigned⟩ := h.allSigned hkeyed rounds 0 _ _ _ .start
  obtain ⟨E, -, -, hok⟩ := listEntries_core (Nat.zero_lt_of_lt hshaped.numHashes)
    hshaped.bucketsPerHash_pos hsigned.encodes hsigned.truthful hstarts.within.signed.2 hlist
  rw [reconstructRecoveryBlock_eq rounds h.second, hlist, Ne, ← hok]
  cases ok with
  | false => exact iff_of_true rfl Bool.false_ne_true
  | true => exact iff_of_false nofun (not_not.mpr rfl)

/-- If no added id comes back, ids are classified correctly. -/
theorem classifies (h : Recovers murmurHash3 b candidates response st₀) (hkeyed : b.txs.Keyed)
    (hnone : NoneReturns murmurHash3 b candidates response st₀) :
    Classifies murmurHash3 b candidates response st₀ := by
  intro rounds hfail status st hrun
  have hstarts := h.starts hkeyed
  have hsigned := h.allSigned hkeyed rounds
  obtain ⟨⟨ok, positive, negative⟩, hlist, -⟩ :=
    Loops.bind_eq_ok ((reconstructRecoveryBlock_eq rounds h.second).symm.trans hfail)
  have hnone' := hnone.resolve_left ((h.direct hkeyed hlist).mp hfail)
  obtain ⟨herr, -⟩ | ⟨status', st', hrun', depth, F, S, hrally, hover⟩ :=
    tryPingPong_spec hsigned (max st₀.first.hashTableSize st₀.second.hashTableSize + 2) .start
      hstarts.stands
  · rw [hrun] at herr
    cases herr
  · obtain ⟨-, rfl⟩ := Prod.mk.inj (Except.ok.inj (hrun.symm.trans hrun'))
    obtain ⟨⟨r, hfirst, hsecond, hreturns⟩, -⟩ | ⟨hplaced, -⟩ := hstarts.over hsigned hrally hover
    · exact absurd hreturns (hnone' r hfirst hsecond)
    · exact hplaced

/-- If one does, it is put on the wrong side. -/
theorem noneReturns (h : Recovers murmurHash3 b candidates response st₀) (hkeyed : b.txs.Keyed)
    (hclassifies : Classifies murmurHash3 b candidates response st₀) :
    NoneReturns murmurHash3 b candidates response st₀ := by
  refine or_iff_not_imp_left.mpr fun hcore r hfirst hsecond hreturns => ?_
  have hstarts := h.starts hkeyed
  have hshaped := hstarts.stands.secondShaped
  -- enough rounds for every listing of the game
  set K := (symDiff b.txs candidates).support ∪
    (symDiff b.txs (addMissing candidates response.missing)).support
  have hsigned := h.allSigned hkeyed (K.card + 1)
  have hsmall : ∀ {depth st F S}, Rally murmurHash3 (K.card + 1) st₀ (symDiff b.txs candidates)
      (symDiff b.txs (addMissing candidates response.missing)) depth st F S →
      F.support.card ≤ K.card ∧ S.support.card ≤ K.card := fun hrally =>
    have hwithin := hstarts.within.rally hstarts.stands hsigned hrally
    ⟨Finset.card_le_card hwithin.first, Finset.card_le_card hwithin.second⟩
  have hfail : reconstructRecoveryBlock false murmurHash3 (K.card + 1) response candidates =
      .ok (.failFatal, addMissing candidates response.missing) := by
    obtain ⟨-, hle⟩ | ⟨ok, positive, negative, E, hlist, -⟩ :=
      (hsigned 0 _ _ _ .start).2.listEntries hshaped (K.card + 1)
    · exact absurd hle (not_le.mpr (Nat.lt_succ_of_le (hsmall .start).2))
    · exact (h.direct hkeyed hlist).mpr hcore
  obtain ⟨-, depth, st, F, S, hrally, hbig⟩ | ⟨status, st, hrun, depth, F, S, hrally, hover⟩ :=
    tryPingPong_spec hsigned (max st₀.first.hashTableSize st₀.second.hashTableSize + 2) .start
      hstarts.stands
  · obtain ⟨hF, hS⟩ := hsmall hrally
    have hdepth := hrally.depth_le
    omega
  · obtain ⟨-, x, hx, hmem⟩ | ⟨-, hnone⟩ := hstarts.over hsigned hrally hover
    · exact (hclassifies _ hfail status st hrun).2 x hmem hx
    · exact hnone r hfirst hsecond hreturns

/-- **With nothing added** the tables stand for one signed set. -/
theorem classifies_of_subset (h : Recovers murmurHash3 b candidates response st₀)
    (hkeyed : b.txs.Keyed) (hsame : ∀ x ∈ response.missing, x ∈ candidates) :
    Classifies murmurHash3 b candidates response st₀ :=
  h.classifies hkeyed (noneReturns_of_subset hsame)

/-- **With one id at most** in the second difference there is no game. -/
theorem classifies_of_card_le_one (h : Recovers murmurHash3 b candidates response st₀)
    (hkeyed : b.txs.Keyed)
    (hfew : (symDiff b.txs (addMissing candidates response.missing)).support.card ≤ 1) :
    Classifies murmurHash3 b candidates response st₀ := by
  have hshaped := (h.starts hkeyed).stands.secondShaped
  refine h.classifies hkeyed (.inl (core_eq_empty (fun x _ => ?_) hfew))
  obtain ⟨j, -, hold⟩ := exists_holds_lt murmurHash3 (Nat.zero_lt_of_lt hshaped.numHashes)
    hshaped.bucketsPerHash_pos x
  exact ⟨j, hold⟩

end Recovers

/-- **When ids are classified correctly**: exactly if no id that the sender has
added comes back. -/
theorem classifies_iff {b : Block} {candidates : ExtTreeSet ℕ} {response : RecoveryResponse}
    (hkeyed : b.txs.Keyed) (h : Recovers murmurHash3 b candidates response st₀) :
    Classifies murmurHash3 b candidates response st₀ ↔
      NoneReturns murmurHash3 b candidates response st₀ :=
  ⟨h.noneReturns hkeyed, h.classifies hkeyed⟩

/-! ## an added id that shares its entries -/

/-- A recovery up to the fallback: the table of the first message, the answer
to the request, and the two differences. -/
def startRecovery (murmurHash3 : ℕ → ℕ → ℕ) (cells : ℕ) (b : Block) (candidates : ExtTreeSet ℕ)
    (request : RecoveryRequest) : Except Halt (Iblt × RecoveryResponse × PingPong) := do
  let iblt ← lookupTable false murmurHash3 cells (txIdsFromBlock b.txs)
  let first ← differenceTable false murmurHash3 iblt candidates
  let response ← recoveryResponse false murmurHash3 b request
  let second ← differenceTable false murmurHash3 response.iblt
    (addMissing candidates response.missing)
  return (iblt, response, { first, second, inBlock := ∅, notInBlock := ∅ })

/-- So it is a recovery, if the ids are clear. -/
theorem recovers_of_startRecovery {cells : ℕ} (hcells : ibltCellMinimum ≤ cells) {b : Block}
    (hkeyed : b.txs.Keyed) {candidates : ExtTreeSet ℕ} {request : RecoveryRequest}
    (hpos : 0 < (request.b + request.yStar).toInt) {iblt : Iblt} {response : RecoveryResponse}
    (hrun : startRecovery murmurHash3 cells b candidates request = .ok (iblt, response, st₀))
    (hsize : iblt.hashTable.length < 2 ^ 24) (hsize' : response.iblt.hashTable.length < 2 ^ 24)
    (hclear : Clear murmurHash3 (b.txs.idSet ∪ idFinset candidates)) :
    Recovers murmurHash3 b candidates response st₀ := by
  obtain ⟨t, ht, hrun⟩ := Loops.bind_eq_ok hrun
  obtain ⟨first, hfirst, hrun⟩ := Loops.bind_eq_ok hrun
  obtain ⟨answer, hanswer, hrun⟩ := Loops.bind_eq_ok hrun
  obtain ⟨second, hsecond, hrun⟩ := Loops.bind_eq_ok hrun
  cases hrun
  obtain ⟨t', ht', hshaped, hencodes, -⟩ :=
    lookupTable_spec murmurHash3 (Nat.lt_of_lt_of_le (by decide) hcells) hkeyed
  obtain rfl := Except.ok.inj (ht.symm.trans ht')
  obtain ⟨hJshaped, hJencodes, -, hmissing⟩ := recoveryResponse_spec hkeyed hpos hanswer
  have hst₀ : PingPong.Stands murmurHash3
      { first := first, second := second, inBlock := ∅, notInBlock := ∅ }
      (symDiff b.txs candidates) (symDiff b.txs (addMissing candidates response.missing)) :=
    ⟨differenceTable_wellShaped hshaped hfirst, differenceTable_wellShaped hJshaped hsecond,
      encodes_differenceTable hencodes hshaped hfirst fun h => absurd hsize (not_lt.mpr h),
      encodes_differenceTable hJencodes hJshaped hsecond fun h => absurd hsize' (not_lt.mpr h)⟩
  constructor
  case first =>
    -- the sizes are such that the table has as many cells
    refine ⟨{ smallest with ceilCBbound := fun _ => cells }, b.txs.size,
      { contains := fun _ => true }, iblt, ?_, hfirst, fun _ => hst₀.first⟩
    have hcount : nIbltCells { smallest with ceilCBbound := fun _ => cells } b.txs.size b.txs.size =
        cells := max_eq_right hcells
    unfold buildSenderComponents
    dsimp only
    rw [Nat.sub_self, if_neg (Nat.not_lt_zero _), hcount, ht]
    rfl
  case answer => exact ⟨request, hpos, hanswer⟩
  case second => exact hsecond
  case large => exact fun _ => hst₀.second
  case inBlock => rfl
  case notInBlock => rfl
  case truthful => exact fun rounds => (within_added hmissing).allTruthful hclear hst₀ rounds

/-- What the fallback makes of it: whether there is one, the ids that
it puts on either side, and what the sender has sent. -/
def outcome (murmurHash3 : ℕ → ℕ → ℕ) (rounds cells : ℕ) (b : Block) (candidates : ExtTreeSet ℕ)
    (request : RecoveryRequest) : Except Halt (DecodeStatus × List ℕ × List ℕ × List ℕ × ℕ × ℕ) := do
  let sent ← startRecovery murmurHash3 cells b candidates request
  let direct ← reconstructRecoveryBlock false murmurHash3 rounds sent.2.1 candidates
  let game ← tryPingPong false murmurHash3 rounds
    (max sent.2.2.first.hashTableSize sent.2.2.second.hashTableSize + 2) sent.2.2 0
  return (direct.1, game.2.inBlock.toList, game.2.notInBlock.toList, sent.2.1.missing,
    sent.1.hashTable.length, sent.2.1.iblt.hashTable.length)

/-- The recovery behind an outcome. -/
theorem recovers_of_outcome {rounds cells : ℕ} (hcells : ibltCellMinimum ≤ cells) {b : Block}
    (hkeyed : b.txs.Keyed) {candidates : ExtTreeSet ℕ} {request : RecoveryRequest}
    (hpos : 0 < (request.b + request.yStar).toInt)
    (hclear : Clear murmurHash3 (b.txs.idSet ∪ idFinset candidates))
    {inBlock notInBlock missing : List ℕ} {n n' : ℕ}
    (hrun : outcome murmurHash3 rounds cells b candidates request =
      .ok (.failFatal, inBlock, notInBlock, missing, n, n'))
    (hn : n < 2 ^ 24) (hn' : n' < 2 ^ 24) :
    ∃ iblt response st₀,
      startRecovery murmurHash3 cells b candidates request = .ok (iblt, response, st₀) ∧
      Recovers murmurHash3 b candidates response st₀ ∧ response.missing = missing ∧
      reconstructRecoveryBlock false murmurHash3 rounds response candidates =
        .ok (.failFatal, addMissing candidates response.missing) ∧
      ∃ status st, tryPingPong false murmurHash3 rounds
          (max st₀.first.hashTableSize st₀.second.hashTableSize + 2) st₀ 0 = .ok (status, st) ∧
        st.inBlock.toList = inBlock ∧ st.notInBlock.toList = notInBlock := by
  obtain ⟨⟨iblt, response, st₀⟩, hsent, hrun⟩ := Loops.bind_eq_ok hrun
  obtain ⟨direct, hdirect, hrun⟩ := Loops.bind_eq_ok hrun
  obtain ⟨⟨status, st⟩, hgame, hrun⟩ := Loops.bind_eq_ok hrun
  obtain ⟨hstatus, hrest⟩ := Prod.mk.inj (Except.ok.inj hrun)
  simp only [Prod.mk.injEq] at hrest
  obtain ⟨hin, hout, hmissing, rfl, rfl⟩ := hrest
  have hrecovers := recovers_of_startRecovery hcells hkeyed hpos hsent hn hn' hclear
  refine ⟨iblt, response, st₀, hsent, hrecovers, hmissing, ?_, status, st, hgame, hin, hout⟩
  rw [reconstructRecoveryBlock_eq rounds hrecovers.second] at hdirect ⊢
  obtain ⟨⟨ok, positive, negative⟩, hlist, hret⟩ := Loops.bind_eq_ok hdirect
  rw [hlist]
  cases ok with
  | true =>
      rw [← Except.ok.inj hret] at hstatus
      cases hstatus
  | false => rfl

/-- A fallback that puts an id of the block on the other side. -/
theorem not_classifies_of_outcome {rounds cells : ℕ} (hcells : ibltCellMinimum ≤ cells) {b : Block}
    (hkeyed : b.txs.Keyed) {candidates : ExtTreeSet ℕ} {request : RecoveryRequest}
    (hpos : 0 < (request.b + request.yStar).toInt)
    (hclear : Clear murmurHash3 (b.txs.idSet ∪ idFinset candidates))
    {inBlock notInBlock missing : List ℕ} {n n' : ℕ}
    (hrun : outcome murmurHash3 rounds cells b candidates request =
      .ok (.failFatal, inBlock, notInBlock, missing, n, n'))
    (hn : n < 2 ^ 24) (hn' : n' < 2 ^ 24) {x : ℕ} (hx : x ∈ b.txs.idSet) (hmem : x ∈ notInBlock) :
    ∃ iblt response st₀,
      startRecovery murmurHash3 cells b candidates request = .ok (iblt, response, st₀) ∧
      Recovers murmurHash3 b candidates response st₀ ∧
      ¬ Classifies murmurHash3 b candidates response st₀ := by
  obtain ⟨iblt, response, st₀, hsent, hrecovers, -, hfail, status, st, hgame, -, hout⟩ :=
    recovers_of_outcome hcells hkeyed hpos hclear hrun hn hn'
  refine ⟨iblt, response, st₀, hsent, hrecovers, fun hclassifies => ?_⟩
  exact (hclassifies rounds hfail status st hgame).2 x (ExtTreeSet.mem_toList.mp (hout ▸ hmem)) hx

/-- A block of these transactions. -/
def blockOf (ids : List ℕ) : Block where
  txs := TxSet.ofList (ids.map fun id => { txId := id, sizeBytes := 100 })

/-- A request whose filter lacks these ids. -/
def requestLacking (ids : List ℕ) (yStar : Int32) : RecoveryRequest where
  blockHash := 0
  b := 2
  yStar := yStar
  receiverBloom := { contains := fun x => !ids.contains x }

/-- The candidate 80 falls into the same entries of the second table as 1.  So
the second table lists nothing at first, the first one lists 2, which the
sender has added, and then the second one lists it too.  The same happens to
397957 in smaller tables. -/
theorem not_classifies_shared :
    (∃ iblt response st₀,
      startRecovery IbltDetail.keyHash 9 (blockOf [1, 2]) {80} (requestLacking [2] 1) =
        .ok (iblt, response, st₀) ∧
      Recovers IbltDetail.keyHash (blockOf [1, 2]) {80} response st₀ ∧
      ¬ Classifies IbltDetail.keyHash (blockOf [1, 2]) {80} response st₀) ∧
    ∃ iblt response st₀,
      startRecovery IbltDetail.keyHash 9 (blockOf [3271, 397957]) {139838} (requestLacking [397957] 0) =
        .ok (iblt, response, st₀) ∧
      Recovers IbltDetail.keyHash (blockOf [3271, 397957]) {139838} response st₀ ∧
      ¬ Classifies IbltDetail.keyHash (blockOf [3271, 397957]) {139838} response st₀ := by
  constructor
  · have hrun : outcome IbltDetail.keyHash 4 9 (blockOf [1, 2]) {80} (requestLacking [2] 1) =
        .ok (.failFatal, [1, 2], [2, 80], [2], 30, 18) := by decide +kernel
    have hclear : Clear IbltDetail.keyHash ((blockOf [1, 2]).txs.idSet ∪ idFinset {80}) := by
      decide +kernel
    exact not_classifies_of_outcome (x := 2) (by decide) (TxSet.keyed_ofList _) (by decide) hclear
      hrun (by decide) (by decide) (by decide +kernel) (by decide)
  · have hrun : outcome IbltDetail.keyHash 4 9 (blockOf [3271, 397957]) {139838}
        (requestLacking [397957] 0) =
        .ok (.failFatal, [3271, 397957], [139838, 397957], [397957], 30, 16) := by decide +kernel
    have hclear : Clear IbltDetail.keyHash
        ((blockOf [3271, 397957]).txs.idSet ∪ idFinset {139838}) := by decide +kernel
    exact not_classifies_of_outcome (x := 397957) (by decide) (TxSet.keyed_ofList _) (by decide)
      hclear hrun (by decide) (by decide) (by decide +kernel) (by decide)

/-- Nothing is missing: the second table still hides 1 behind 80, and the first
one tells them apart. -/
theorem classifies_shared :
    ∃ iblt response st₀,
      startRecovery IbltDetail.keyHash 9 (blockOf [1, 2]) {80} (requestLacking [] 1) =
        .ok (iblt, response, st₀) ∧
      Classifies IbltDetail.keyHash (blockOf [1, 2]) {80} response st₀ := by
  have hrun : outcome IbltDetail.keyHash 4 9 (blockOf [1, 2]) {80} (requestLacking [] 1) =
      .ok (.failFatal, [1, 2], [80], [], 30, 18) := by decide +kernel
  have hclear : Clear IbltDetail.keyHash ((blockOf [1, 2]).txs.idSet ∪ idFinset {80}) := by
    decide +kernel
  have hkeyed : (blockOf [1, 2]).txs.Keyed := TxSet.keyed_ofList _
  obtain ⟨iblt, response, st₀, hsent, hrecovers, hmissing, -⟩ :=
    recovers_of_outcome (by decide) hkeyed (by decide) hclear hrun (by decide) (by decide)
  refine ⟨iblt, response, st₀, hsent, (classifies_iff hkeyed hrecovers).mpr ?_⟩
  exact noneReturns_of_subset fun x hx => absurd (hmissing ▸ hx) List.not_mem_nil

end GrapheneProtocol

end GhostDag
