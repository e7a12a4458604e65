import GhostDag.Graphene.Relay
import GhostDag.Lib.Loops

/-!
# GhostDag.Graphene.Recovery

The second protocol of Graphene against full relay.

A decoded answer is the block.  Otherwise two difference tables are peeled in
turn, and what one of them lists is struck out of both, so that they always
differ by the same signed set (`Rally.sub`).  A game that is won has emptied
both, so they stood for one signed set all along, and the ids struck out turn
the receiver's set into the block (`protocol2_agrees`).
-/

namespace GhostDag

open Std (ExtTreeSet)
open Containers

namespace GrapheneProtocol

variable {murmurHash3 : ℕ → ℕ → ℕ}

/-! ## striking out -/

namespace PingPong

/-- The two tables stand for the signed sets `F` and `S`. -/
structure Stands (murmurHash3 : ℕ → ℕ → ℕ) (st : PingPong) (F S : ℕ →₀ ℤ) : Prop where
  firstShaped : st.first.WellShaped
  secondShaped : st.second.WellShaped
  first : st.first.Encodes murmurHash3 F
  second : st.second.Encodes murmurHash3 S

theorem Stands.swap {st : PingPong} {F S : ℕ →₀ ℤ} (h : st.Stands murmurHash3 F S) :
    st.swap.Stands murmurHash3 S F := ⟨h.secondShaped, h.firstShaped, h.second, h.first⟩

theorem strikePositive_spec {st : PingPong} {F S : ℕ →₀ ℤ} (h : st.Stands murmurHash3 F S)
    (x : ℕ × ValueBytes) :
    ∃ st', st.strikePositive false murmurHash3 x = .ok st' ∧
      st'.Stands murmurHash3 (F - Finsupp.single x.1 1) (S - Finsupp.single x.1 1) ∧
      st'.inBlock = st.inBlock.insert x.1 ∧ st'.notInBlock = st.notInBlock := by
  obtain ⟨u, hu, hushape, huencodes⟩ := h.second.insert h.secondShaped.bucketsPerHash_pos
    (-1) (.inr rfl) x.1 fun _ => x.2
  obtain ⟨t, ht, htshape, htencodes⟩ := h.first.insert h.firstShaped.bucketsPerHash_pos
    (-1) (.inr rfl) x.1 fun _ => x.2
  rw [Finsupp.single_neg, ← sub_eq_add_neg] at huencodes htencodes
  refine ⟨{ st with first := t, second := u, inBlock := st.inBlock.insert x.1 }, ?_,
    ⟨htshape.wellShaped h.firstShaped, hushape.wellShaped h.secondShaped, htencodes, huencodes⟩,
    rfl, rfl⟩
  rw [strikePositive, Iblt.erase, Iblt.erase, hu, ht]
  rfl

theorem strikeNegative_spec {st : PingPong} {F S : ℕ →₀ ℤ} (h : st.Stands murmurHash3 F S)
    (x : ℕ × ValueBytes) :
    ∃ st', st.strikeNegative false murmurHash3 x = .ok st' ∧
      st'.Stands murmurHash3 (F + Finsupp.single x.1 1) (S + Finsupp.single x.1 1) ∧
      st'.inBlock = st.inBlock ∧ st'.notInBlock = st.notInBlock.insert x.1 := by
  obtain ⟨u, hu, hushape, huencodes⟩ := h.second.insert h.secondShaped.bucketsPerHash_pos
    1 (.inl rfl) x.1 fun _ => x.2
  obtain ⟨t, ht, htshape, htencodes⟩ := h.first.insert h.firstShaped.bucketsPerHash_pos
    1 (.inl rfl) x.1 fun _ => x.2
  refine ⟨{ st with first := t, second := u, notInBlock := st.notInBlock.insert x.1 }, ?_,
    ⟨htshape.wellShaped h.firstShaped, hushape.wellShaped h.secondShaped, htencodes, huencodes⟩,
    rfl, rfl⟩
  rw [strikeNegative, Iblt.insert, Iblt.insert, hu, ht]
  rfl

theorem strikePositives_spec {st : PingPong} {F S : ℕ →₀ ℤ} (h : st.Stands murmurHash3 F S)
    (positive : Listing) :
    ∃ st', positive.foldlM (strikePositive false murmurHash3) st = .ok st' ∧
      st'.Stands murmurHash3 (F - (positive.keys.map fun x => Finsupp.single x 1).sum)
        (S - (positive.keys.map fun x => Finsupp.single x 1).sum) ∧
      (∀ x, x ∈ st'.inBlock ↔ x ∈ st.inBlock ∨ x ∈ positive.keys) ∧
      st'.notInBlock = st.notInBlock := by
  induction positive generalizing st F S with
  | nil => exact ⟨st, rfl, by simpa [Listing.keys] using h, by simp [Listing.keys], rfl⟩
  | cons x l ih =>
      obtain ⟨u, hu, hstands, hin, hnot⟩ := strikePositive_spec h x
      obtain ⟨st', hst', hstands', hin', hnot'⟩ := ih hstands
      refine ⟨st', ?_, ?_, fun y => ?_, hnot'.trans hnot⟩
      · rw [List.foldlM_cons, hu]
        exact hst'
      · rw [Listing.keys, List.map_cons, List.map_cons, List.sum_cons, ← sub_sub, ← sub_sub]
        exact hstands'
      · rw [hin', hin, mem_set_insert, Listing.keys, Listing.keys, List.map_cons, List.mem_cons]
        tauto

theorem strikeNegatives_spec {st : PingPong} {F S : ℕ →₀ ℤ} (h : st.Stands murmurHash3 F S)
    (negative : Listing) :
    ∃ st', negative.foldlM (strikeNegative false murmurHash3) st = .ok st' ∧
      st'.Stands murmurHash3 (F + (negative.keys.map fun x => Finsupp.single x 1).sum)
        (S + (negative.keys.map fun x => Finsupp.single x 1).sum) ∧
      st'.inBlock = st.inBlock ∧
      (∀ x, x ∈ st'.notInBlock ↔ x ∈ st.notInBlock ∨ x ∈ negative.keys) := by
  induction negative generalizing st F S with
  | nil => exact ⟨st, rfl, by simpa [Listing.keys] using h, rfl, by simp [Listing.keys]⟩
  | cons x l ih =>
      obtain ⟨u, hu, hstands, hin, hnot⟩ := strikeNegative_spec h x
      obtain ⟨st', hst', hstands', hin', hnot'⟩ := ih hstands
      refine ⟨st', ?_, ?_, hin'.trans hin, fun y => ?_⟩
      · rw [List.foldlM_cons, hu]
        exact hst'
      · rw [Listing.keys, List.map_cons, List.map_cons, List.sum_cons, ← add_assoc, ← add_assoc]
        exact hstands'
      · rw [hnot', hnot, mem_set_insert, Listing.keys, Listing.keys, List.map_cons, List.mem_cons]
        tauto

end PingPong

/-- A signed set after a listing has been struck out. -/
noncomputable def struck (F : ℕ →₀ ℤ) (positive negative : Listing) : ℕ →₀ ℤ :=
  F - ofIds positive.keys.toFinset + ofIds negative.keys.toFinset

theorem struck_apply (F : ℕ →₀ ℤ) (positive negative : Listing) (x : ℕ) :
    struck F positive negative x = F x - (if x ∈ positive.keys then 1 else 0) +
      if x ∈ negative.keys then 1 else 0 := by
  rw [struck, Finsupp.add_apply, Finsupp.sub_apply, ofIds_apply, ofIds_apply]
  simp only [List.mem_toFinset]

theorem struck_sub (F S : ℕ →₀ ℤ) (positive negative : Listing) :
    struck F positive negative - struck S positive negative = F - S := by
  rw [struck, struck]
  abel

section Listed

variable {D E : ℕ →₀ ℤ} {ok : Bool} {positive negative : Listing}

/-- What is listed leaves the rest in its own table. -/
theorem struck_self (h : Iblt.Lists D ok positive negative E) : struck D positive negative = E := by
  ext x
  have hpos := h.mem_positive x
  have hneg := h.mem_negative x
  rw [struck_apply]
  obtain hE | ⟨hE, hD | hD⟩ := h.left x
  · have hp : x ∉ positive.keys := fun hx => by have := hpos.mp hx; omega
    have hn : x ∉ negative.keys := fun hx => by have := hneg.mp hx; omega
    rw [if_neg hp, if_neg hn, hE, sub_zero, add_zero]
  · have hn : x ∉ negative.keys := fun hx => by have := hneg.mp hx; omega
    rw [if_pos (hpos.mpr ⟨hD, hE⟩), if_neg hn, hD, hE]
    rfl
  · have hp : x ∉ positive.keys := fun hx => by have := hpos.mp hx; omega
    rw [if_neg hp, if_pos (hneg.mpr ⟨hD, hE⟩), hD, hE]
    rfl

/-- And what is listed is gone from the other one. -/
theorem struck_other (h : Iblt.Lists D ok positive negative E) (F : ℕ →₀ ℤ) :
    struck F positive negative = F - D + E := by
  rw [← struck_self h, ← sub_add_cancel (struck F positive negative) (struck D positive negative),
    struck_sub]

/-- A listing leaves some ids as they are. -/
theorem left_eq_ite (h : Iblt.Lists D ok positive negative E) {C : Finset ℕ} (hE : E.support = C) (x : ℕ) :
    E x = if x ∈ C then D x else 0 := by
  subst hE
  split
  · next hx => exact (h.left x).resolve_right fun hzero => Finsupp.mem_support_iff.mp hx hzero.1
  · next hx => exact Finsupp.notMem_support_iff.mp hx

end Listed

/-- **What is struck out of one table is struck out of both.** -/
theorem PingPong.strike_spec {st : PingPong} {F S : ℕ →₀ ℤ} (h : st.Stands murmurHash3 F S)
    {positive negative : Listing} (hpos : positive.keys.Nodup) (hneg : negative.keys.Nodup) :
    ∃ st', st.strike false murmurHash3 positive negative = .ok st' ∧
      st'.Stands murmurHash3 (struck F positive negative) (struck S positive negative) ∧
      (∀ x, x ∈ st'.inBlock ↔ x ∈ st.inBlock ∨ x ∈ positive.keys) ∧
      ∀ x, x ∈ st'.notInBlock ↔ x ∈ st.notInBlock ∨ x ∈ negative.keys := by
  obtain ⟨u, hu, hustands, huin, hunot⟩ := strikePositives_spec h positive
  obtain ⟨st', hst', hstands, hin, hnot⟩ := strikeNegatives_spec hustands negative
  rw [← ofIds_toFinset hpos, ← ofIds_toFinset hneg] at hstands
  refine ⟨st', ?_, hstands, fun x => by rw [hin, huin], fun x => by rw [hnot, hunot]⟩
  rw [strike, hu]
  exact hst'

theorem PingPong.Stands.of_strike {st st' : PingPong} {F S : ℕ →₀ ℤ}
    (h : st.Stands murmurHash3 F S) {positive negative : Listing} (hpos : positive.keys.Nodup)
    (hneg : negative.keys.Nodup) (hstrike : st.strike false murmurHash3 positive negative = .ok st') :
    st'.Stands murmurHash3 (struck F positive negative) (struck S positive negative) ∧
      (∀ x, x ∈ st'.inBlock ↔ x ∈ st.inBlock ∨ x ∈ positive.keys) ∧
      ∀ x, x ∈ st'.notInBlock ↔ x ∈ st.notInBlock ∨ x ∈ negative.keys := by
  obtain ⟨u, hu, hspec⟩ := strike_spec h hpos hneg
  rw [hstrike, Except.ok.injEq] at hu
  exact hu ▸ hspec

/-! ## the game -/

/-- A table read as the signed set `D` of ids, with tests that are truthful. -/
structure SignedTable (murmurHash3 : ℕ → ℕ → ℕ) (t : Iblt) (D : ℕ →₀ ℤ) : Prop where
  encodes : t.Encodes murmurHash3 D
  truthful : t.Truthful murmurHash3 D

theorem SignedTable.listEntries {t : Iblt} {D : ℕ →₀ ℤ} (h : SignedTable murmurHash3 t D)
    (ht : t.WellShaped) (rounds : ℕ) :
    (t.listEntries false murmurHash3 rounds [] [] = .error .rounds ∧ rounds ≤ D.support.card) ∨
      ∃ ok positive negative E, t.listEntries false murmurHash3 rounds [] [] =
        .ok (ok, positive, negative) ∧ Iblt.Lists D ok positive negative E :=
  Iblt.listEntries_spec (Nat.zero_lt_of_lt ht.numHashes) ht.bucketsPerHash_pos h.encodes
    h.truthful rounds

theorem SignedTable.lists {t : Iblt} {D : ℕ →₀ ℤ} (h : SignedTable murmurHash3 t D)
    (ht : t.WellShaped) {rounds : ℕ} {ok : Bool} {positive negative : Listing}
    (hlist : t.listEntries false murmurHash3 rounds [] [] = .ok (ok, positive, negative)) :
    ∃ E, Iblt.Lists D ok positive negative E := by
  obtain ⟨herr, -⟩ | ⟨_, _, _, E, hlist', hlists⟩ := h.listEntries ht rounds
  · rw [hlist] at herr
    cases herr
  · rw [hlist] at hlist'
    cases hlist'
    exact ⟨E, hlists⟩

/-- The calls of `TryPingPong`, each with its depth, its tables and the signed
sets that they stand for. -/
inductive Rally (murmurHash3 : ℕ → ℕ → ℕ) (rounds : ℕ) (st₀ : PingPong) (F₀ S₀ : ℕ →₀ ℤ) :
    ℕ → PingPong → (ℕ →₀ ℤ) → (ℕ →₀ ℤ) → Prop
  | start : Rally murmurHash3 rounds st₀ F₀ S₀ 0 st₀ F₀ S₀
  | second {depth : ℕ} {st st' : PingPong} {F S : ℕ →₀ ℤ} {ok : Bool} {positive negative : Listing} :
      Rally murmurHash3 rounds st₀ F₀ S₀ depth st F S → depth ≤ st.first.hashTableSize →
      st.second.listEntries false murmurHash3 rounds [] [] = .ok (ok, positive, negative) →
      ¬ (positive.isEmpty && negative.isEmpty) = true →
      st.strike false murmurHash3 positive negative = .ok st' →
      Rally murmurHash3 rounds st₀ F₀ S₀ (depth + 1) st'.swap
        (struck S positive negative) (struck F positive negative)
  | first {depth : ℕ} {st st' : PingPong} {F S : ℕ →₀ ℤ} {ok ok' : Bool}
      {positive negative : Listing} :
      Rally murmurHash3 rounds st₀ F₀ S₀ depth st F S → depth ≤ st.first.hashTableSize →
      st.second.listEntries false murmurHash3 rounds [] [] = .ok (ok, [], []) →
      st.first.listEntries false murmurHash3 rounds [] [] = .ok (ok', positive, negative) →
      ¬ (positive.isEmpty && negative.isEmpty) = true →
      st.strike false murmurHash3 positive negative = .ok st' →
      Rally murmurHash3 rounds st₀ F₀ S₀ (depth + 1) st'
        (struck F positive negative) (struck S positive negative)

theorem lists_nil {D E : ℕ →₀ ℤ} (h : Iblt.Lists D true [] [] E) : D = 0 := by
  ext x
  have hE : E x = 0 := by rw [h.eq_zero rfl, Finsupp.coe_zero, Pi.zero_apply]
  obtain heq | ⟨-, hone | hone⟩ := h.left x
  · rw [← heq, hE, Finsupp.coe_zero, Pi.zero_apply]
  · exact absurd ((h.mem_positive x).mpr ⟨hone, hE⟩) List.not_mem_nil
  · exact absurd ((h.mem_negative x).mpr ⟨hone, hE⟩) List.not_mem_nil

section Calls

variable {checked : Bool} {rounds calls depth : ℕ} {st st' : PingPong}

/-- A call that strikes out what the second table lists. -/
theorem tryPingPong_second {ok : Bool} {positive negative : Listing}
    (hdepth : depth ≤ st.first.hashTableSize)
    (hlist : st.second.listEntries checked murmurHash3 rounds [] [] = .ok (ok, positive, negative))
    (hne : ¬ (positive.isEmpty && negative.isEmpty) = true)
    (hstrike : st.strike checked murmurHash3 positive negative = .ok st') :
    tryPingPong checked murmurHash3 rounds (calls + 1) st depth =
      tryPingPong checked murmurHash3 rounds calls st'.swap (depth + 1) := by
  rw [tryPingPong, if_neg (not_lt.mpr hdepth), hlist]
  change (if (positive.isEmpty && negative.isEmpty) = true then _ else _) = _
  rw [if_neg hne, hstrike]
  rfl

/-- A call that strikes out what the first table lists. -/
theorem tryPingPong_first {ok ok' : Bool} {positive negative : Listing}
    (hdepth : depth ≤ st.first.hashTableSize)
    (hlist : st.second.listEntries checked murmurHash3 rounds [] [] = .ok (ok, [], []))
    (hlist' : st.first.listEntries checked murmurHash3 rounds [] [] = .ok (ok', positive, negative))
    (hne : ¬ (positive.isEmpty && negative.isEmpty) = true)
    (hstrike : st.strike checked murmurHash3 positive negative = .ok st') :
    tryPingPong checked murmurHash3 rounds (calls + 1) st depth =
      tryPingPong checked murmurHash3 rounds calls st' (depth + 1) := by
  rw [tryPingPong, if_neg (not_lt.mpr hdepth), hlist]
  change (st.first.listEntries checked murmurHash3 rounds [] [] >>= _) = _
  rw [hlist']
  change (if (positive.isEmpty && negative.isEmpty) = true then _ else _) = _
  rw [if_neg hne, hstrike]
  rfl

/-- A call that ends the game. -/
theorem tryPingPong_done {ok ok' : Bool} (hdepth : depth ≤ st.first.hashTableSize)
    (hlist : st.second.listEntries checked murmurHash3 rounds [] [] = .ok (ok, [], []))
    (hlist' : st.first.listEntries checked murmurHash3 rounds [] [] = .ok (ok', [], [])) :
    tryPingPong checked murmurHash3 rounds (calls + 1) st depth =
      .ok (if ok' && ok then .success else .failRecoverable, st) := by
  rw [tryPingPong, if_neg (not_lt.mpr hdepth), hlist]
  change (st.first.listEntries checked murmurHash3 rounds [] [] >>= _) = _
  rw [hlist']
  rfl

/-- Striking out keeps the shapes. -/
theorem PingPong.shapes_of_strike {positive negative : Listing}
    (h : st.strike checked murmurHash3 positive negative = .ok st') :
    st.first.SameShape st'.first ∧ st.second.SameShape st'.second := by
  let Keeps (u : PingPong) : Prop := st.first.SameShape u.first ∧ st.second.SameShape u.second
  -- one id out of both tables, or into both
  have hone : ∀ {u : PingPong} {second first : Iblt} {c : ℤ} {k : ℕ} {v : ValueBytes}, Keeps u →
      u.second._insert checked murmurHash3 c k (fun _ => v) = .ok second →
      u.first._insert checked murmurHash3 c k (fun _ => v) = .ok first →
      st.first.SameShape first ∧ st.second.SameShape second := fun hu hsecond hfirst =>
    ⟨hu.1.trans (Iblt.shape_of_insert hfirst), hu.2.trans (Iblt.shape_of_insert hsecond)⟩
  obtain ⟨u, hu, h⟩ := Loops.bind_eq_ok h
  have hpositive : Keeps u := by
    refine Loops.foldlM_invariant (P := Keeps) (fun u x u' hu hstep => ?_) positive
      ⟨⟨rfl, rfl⟩, rfl, rfl⟩ hu
    obtain ⟨second, hsecond, hstep⟩ := Loops.bind_eq_ok hstep
    obtain ⟨first, hfirst, hstep⟩ := Loops.bind_eq_ok hstep
    cases hstep
    exact hone hu hsecond hfirst
  refine Loops.foldlM_invariant (P := Keeps) (fun u x u' hu hstep => ?_) negative hpositive h
  obtain ⟨second, hsecond, hstep⟩ := Loops.bind_eq_ok hstep
  obtain ⟨first, hfirst, hstep⟩ := Loops.bind_eq_ok hstep
  cases hstep
  exact hone hu hsecond hfirst

end Calls

section Game

variable {rounds : ℕ} {st₀ : PingPong} {F₀ S₀ : ℕ →₀ ℤ}

/-- Every table of the game is a signed set of ids. -/
def AllSigned (murmurHash3 : ℕ → ℕ → ℕ) (rounds : ℕ) (st₀ : PingPong) (F₀ S₀ : ℕ →₀ ℤ) : Prop :=
  ∀ depth st F S, Rally murmurHash3 rounds st₀ F₀ S₀ depth st F S →
    SignedTable murmurHash3 st.first F ∧ SignedTable murmurHash3 st.second S

theorem eq_nil_of_isEmpty {positive negative : Listing}
    (h : (positive.isEmpty && negative.isEmpty) = true) : positive = [] ∧ negative = [] := by
  rwa [Bool.and_eq_true, List.isEmpty_iff, List.isEmpty_iff] at h

/-- How the game ends: too deep, or with nothing left to list. -/
inductive Over (murmurHash3 : ℕ → ℕ → ℕ) (rounds depth : ℕ) (st : PingPong) : DecodeStatus → Prop
  | deep : st.first.hashTableSize < depth → Over murmurHash3 rounds depth st .failFatal
  | done {ok ok' : Bool} :
      st.second.listEntries false murmurHash3 rounds [] [] = .ok (ok, [], []) →
      st.first.listEntries false murmurHash3 rounds [] [] = .ok (ok', [], []) →
      Over murmurHash3 rounds depth st (if ok' && ok then .success else .failRecoverable)

/-- **What `TryPingPong` returns** is the last call of the game.  It runs out
of rounds over a table that is too large, or at a depth that is given. -/
theorem tryPingPong_spec (hsigned : AllSigned murmurHash3 rounds st₀ F₀ S₀) (calls : ℕ)
    {depth : ℕ} {st : PingPong} {F S : ℕ →₀ ℤ}
    (h : Rally murmurHash3 rounds st₀ F₀ S₀ depth st F S) (hst : st.Stands murmurHash3 F S) :
    (tryPingPong false murmurHash3 rounds calls st depth = .error .rounds ∧
      ∃ depth' st' F' S', Rally murmurHash3 rounds st₀ F₀ S₀ depth' st' F' S' ∧
        (rounds ≤ F'.support.card ∨ rounds ≤ S'.support.card ∨ depth + calls ≤ depth')) ∨
      ∃ status st', tryPingPong false murmurHash3 rounds calls st depth = .ok (status, st') ∧
        ∃ depth' F' S', Rally murmurHash3 rounds st₀ F₀ S₀ depth' st' F' S' ∧
          Over murmurHash3 rounds depth' st' status := by
  induction calls generalizing depth st F S with
  | zero => exact .inl ⟨rfl, depth, st, F, S, h, .inr (.inr le_rfl)⟩
  | succ calls ih =>
      obtain ⟨hfirst, hsecond⟩ := hsigned _ _ _ _ h
      rw [show depth + (calls + 1) = depth + 1 + calls by omega]
      by_cases hdepth : st.first.hashTableSize < depth
      · refine .inr ⟨.failFatal, st, ?_, depth, F, S, h, .deep hdepth⟩
        rw [tryPingPong, if_pos hdepth]
        rfl
      · have hle := not_lt.mp hdepth
        obtain ⟨herr, hcard⟩ | ⟨ok, positive, negative, E, hlist, hlists⟩ :=
          hsecond.listEntries hst.secondShaped rounds
        · rw [tryPingPong, if_neg hdepth, herr]
          exact .inl ⟨rfl, depth, st, F, S, h, .inr (.inl hcard)⟩
        · by_cases hempty : (positive.isEmpty && negative.isEmpty) = true
          · obtain ⟨rfl, rfl⟩ := eq_nil_of_isEmpty hempty
            obtain ⟨herr, hcard⟩ | ⟨ok', positive, negative, E', hlist', hlists'⟩ :=
              hfirst.listEntries hst.firstShaped rounds
            · refine .inl ⟨?_, depth, st, F, S, h, .inl hcard⟩
              rw [tryPingPong, if_neg hdepth, hlist]
              change (st.first.listEntries false murmurHash3 rounds [] [] >>= _) = _
              rw [herr]
              rfl
            · by_cases hempty' : (positive.isEmpty && negative.isEmpty) = true
              · obtain ⟨rfl, rfl⟩ := eq_nil_of_isEmpty hempty'
                exact .inr ⟨_, st, tryPingPong_done hle hlist hlist', depth, F, S, h,
                  .done hlist hlist'⟩
              · obtain ⟨st', hst', hstands, -⟩ := PingPong.strike_spec hst
                  hlists'.nodup_positive hlists'.nodup_negative
                rw [tryPingPong_first hle hlist hlist' hempty' hst']
                exact ih (.first h hle hlist hlist' hempty' hst') hstands
          · obtain ⟨st', hst', hstands, -⟩ := PingPong.strike_spec hst
              hlists.nodup_positive hlists.nodup_negative
            rw [tryPingPong_second hle hlist hempty hst']
            exact ih (.second h hle hlist hempty hst') hstands.swap

/-- **What a game preserves**: what holds at the start, does not depend on the
turn, and holds on after a listing of either table has been struck out. -/
theorem Rally.invariant {P : PingPong → (ℕ →₀ ℤ) → (ℕ →₀ ℤ) → Prop}
    (hsigned : ∀ {depth st F S}, Rally murmurHash3 rounds st₀ F₀ S₀ depth st F S → P st F S →
      st.Stands murmurHash3 F S ∧ SignedTable murmurHash3 st.first F ∧
        SignedTable murmurHash3 st.second S)
    (hstart : P st₀ F₀ S₀) (hswap : ∀ {st F S}, P st F S → P st.swap S F)
    (hstrike : ∀ {st F S ok positive negative E st'}, P st F S → st.Stands murmurHash3 F S →
      Iblt.Lists F ok positive negative E ∨ Iblt.Lists S ok positive negative E →
      st.strike false murmurHash3 positive negative = .ok st' →
      P st' (struck F positive negative) (struck S positive negative))
    {depth : ℕ} {st : PingPong} {F S : ℕ →₀ ℤ}
    (h : Rally murmurHash3 rounds st₀ F₀ S₀ depth st F S) : P st F S := by
  induction h with
  | start => exact hstart
  | second h _ hlist _ hst' ih =>
      obtain ⟨hst, -, hsecond⟩ := hsigned h ih
      obtain ⟨E, hlists⟩ := hsecond.lists hst.secondShaped hlist
      exact hswap (hstrike ih hst (.inr hlists) hst')
  | first h _ _ hlist _ hst' ih =>
      obtain ⟨hst, hfirst, -⟩ := hsigned h ih
      obtain ⟨E, hlists⟩ := hfirst.lists hst.firstShaped hlist
      exact hstrike ih hst (.inl hlists) hst'

theorem PingPong.Stands.of_lists {st st' : PingPong} {F S E : ℕ →₀ ℤ} {ok : Bool}
    {positive negative : Listing} (h : st.Stands murmurHash3 F S)
    (hlists : Iblt.Lists F ok positive negative E ∨ Iblt.Lists S ok positive negative E)
    (hstrike : st.strike false murmurHash3 positive negative = .ok st') :
    st'.Stands murmurHash3 (struck F positive negative) (struck S positive negative) ∧
      (∀ x, x ∈ st'.inBlock ↔ x ∈ st.inBlock ∨ x ∈ positive.keys) ∧
      ∀ x, x ∈ st'.notInBlock ↔ x ∈ st.notInBlock ∨ x ∈ negative.keys :=
  h.of_strike (hlists.elim (·.nodup_positive) (·.nodup_positive))
    (hlists.elim (·.nodup_negative) (·.nodup_negative)) hstrike

/-- Every table of the game is tested truthfully. -/
def AllTruthful (murmurHash3 : ℕ → ℕ → ℕ) (rounds : ℕ) (st₀ : PingPong) (F₀ S₀ : ℕ →₀ ℤ) : Prop :=
  ∀ depth st F S, Rally murmurHash3 rounds st₀ F₀ S₀ depth st F S →
    st.first.Truthful murmurHash3 F ∧ st.second.Truthful murmurHash3 S

/-- So if the tables at the start stand for signed sets, all of them do. -/
theorem AllTruthful.stands (htrue : AllTruthful murmurHash3 rounds st₀ F₀ S₀)
    (hst₀ : st₀.Stands murmurHash3 F₀ S₀) {depth : ℕ} {st : PingPong} {F S : ℕ →₀ ℤ}
    (h : Rally murmurHash3 rounds st₀ F₀ S₀ depth st F S) : st.Stands murmurHash3 F S := by
  refine h.invariant (P := fun st F S => st.Stands murmurHash3 F S) (fun h hst => ?_) hst₀
    PingPong.Stands.swap fun _ hst hlists hstrike => (hst.of_lists hlists hstrike).1
  exact ⟨hst, ⟨hst.first, (htrue _ _ _ _ h).1⟩, hst.second, (htrue _ _ _ _ h).2⟩

theorem AllTruthful.allSigned (htrue : AllTruthful murmurHash3 rounds st₀ F₀ S₀)
    (hst₀ : st₀.Stands murmurHash3 F₀ S₀) : AllSigned murmurHash3 rounds st₀ F₀ S₀ :=
  fun _ _ _ _ h => ⟨⟨(htrue.stands hst₀ h).first, (htrue _ _ _ _ h).1⟩,
    (htrue.stands hst₀ h).second, (htrue _ _ _ _ h).2⟩

/-- The game keeps its two tables. -/
theorem Rally.stands (hsigned : AllSigned murmurHash3 rounds st₀ F₀ S₀)
    (hst₀ : st₀.Stands murmurHash3 F₀ S₀) {depth : ℕ} {st : PingPong} {F S : ℕ →₀ ℤ}
    (h : Rally murmurHash3 rounds st₀ F₀ S₀ depth st F S) : st.Stands murmurHash3 F S :=
  AllTruthful.stands (fun _ _ _ _ h => ⟨(hsigned _ _ _ _ h).1.truthful,
    (hsigned _ _ _ _ h).2.truthful⟩) hst₀ h

/-- **The two tables always differ by the same signed set**, up to the turn. -/
theorem Rally.sub {depth : ℕ} {st : PingPong} {F S : ℕ →₀ ℤ}
    (h : Rally murmurHash3 rounds st₀ F₀ S₀ depth st F S) :
    F - S = F₀ - S₀ ∨ S - F = F₀ - S₀ := by
  induction h with
  | start => exact .inl rfl
  | second _ _ _ _ _ ih =>
      rw [struck_sub, struck_sub]
      exact ih.symm
  | first _ _ _ _ _ _ ih =>
      rw [struck_sub, struck_sub]
      exact ih

/-- Every id either counts as in `D`, or has been struck out with its sign. -/
def Settled (D F : ℕ →₀ ℤ) (st : PingPong) : Prop :=
  ∀ x, (F x = D x ∧ x ∉ st.inBlock ∧ x ∉ st.notInBlock) ∨
    (F x = 0 ∧ D x = 1 ∧ x ∈ st.inBlock ∧ x ∉ st.notInBlock) ∨
    (F x = 0 ∧ D x = -1 ∧ x ∉ st.inBlock ∧ x ∈ st.notInBlock)

theorem Settled.strike {D F E : ℕ →₀ ℤ} {st st' : PingPong} (h : Settled D F st) {ok : Bool}
    {positive negative : Listing} (hlists : Iblt.Lists F ok positive negative E)
    (hin : ∀ x, x ∈ st'.inBlock ↔ x ∈ st.inBlock ∨ x ∈ positive.keys)
    (hnot : ∀ x, x ∈ st'.notInBlock ↔ x ∈ st.notInBlock ∨ x ∈ negative.keys) :
    Settled D (struck F positive negative) st' := by
  intro x
  have hpos : x ∈ positive.keys → F x = 1 := fun hx => ((hlists.mem_positive x).mp hx).1
  have hneg : x ∈ negative.keys → F x = -1 := fun hx => ((hlists.mem_negative x).mp hx).1
  rw [struck_apply, hin, hnot]
  by_cases hxp : x ∈ positive.keys
  · have hF := hpos hxp
    have hxn : x ∉ negative.keys := fun hx => by have := hneg hx; omega
    rw [if_pos hxp, if_neg hxn, hF]
    obtain ⟨hD, -, hn⟩ | ⟨hzero, -⟩ | ⟨hzero, -⟩ := h x
    · exact .inr (.inl ⟨by omega, by omega, .inr hxp, by tauto⟩)
    · omega
    · omega
  · rw [if_neg hxp]
    by_cases hxn : x ∈ negative.keys
    · have hF := hneg hxn
      rw [if_pos hxn, hF]
      obtain ⟨hD, hi, -⟩ | ⟨hzero, -⟩ | ⟨hzero, -⟩ := h x
      · exact .inr (.inr ⟨by omega, by omega, by tauto, .inr hxn⟩)
      · omega
      · omega
    · rw [if_neg hxn, sub_zero, add_zero]
      simpa only [hxp, hxn, or_false] using h x

/-- While the tables stand for one signed set, ids are struck out for good. -/
theorem Rally.settled (hsigned : AllSigned murmurHash3 rounds st₀ F₀ F₀)
    (hst₀ : st₀.Stands murmurHash3 F₀ F₀) (hin : st₀.inBlock = ∅) (hnot : st₀.notInBlock = ∅)
    {depth : ℕ} {st : PingPong} {F S : ℕ →₀ ℤ}
    (h : Rally murmurHash3 rounds st₀ F₀ F₀ depth st F S) : F = S ∧ Settled F₀ F st := by
  refine h.invariant (P := fun st F S => F = S ∧ Settled F₀ F st)
    (fun h _ => ⟨h.stands hsigned hst₀, hsigned _ _ _ _ h⟩) ?_ ?_ ?_
  · exact ⟨rfl, fun x => .inl ⟨rfl, by simp [hin], by simp [hnot]⟩⟩
  · rintro st F S ⟨rfl, hsettled⟩
    exact ⟨rfl, hsettled⟩
  · rintro st F S ok positive negative E st' ⟨rfl, hsettled⟩ hst hlists hstrike
    obtain ⟨-, hin', hnot'⟩ := hst.of_lists hlists hstrike
    exact ⟨rfl, hsettled.strike (hlists.elim id id) hin' hnot'⟩

/-- **A game that is won has emptied both tables.** -/
theorem Over.eq_zero (hsigned : AllSigned murmurHash3 rounds st₀ F₀ S₀)
    (hst₀ : st₀.Stands murmurHash3 F₀ S₀) {depth : ℕ} {st : PingPong} {F S : ℕ →₀ ℤ}
    (h : Rally murmurHash3 rounds st₀ F₀ S₀ depth st F S)
    (hover : Over murmurHash3 rounds depth st .success) : F = 0 ∧ S = 0 := by
  generalize hstatus : DecodeStatus.success = status at hover
  cases hover with
  | deep => cases hstatus
  | @done ok ok' hlist hlist' =>
      have hok : (ok' && ok) = true := by
        by_contra hne
        rw [if_neg hne] at hstatus
        cases hstatus
      obtain ⟨rfl, rfl⟩ := Bool.and_eq_true_iff.mp hok
      have hst := h.stands hsigned hst₀
      obtain ⟨E, hlists⟩ := (hsigned _ _ _ _ h).2.lists hst.secondShaped hlist
      obtain ⟨E', hlists'⟩ := (hsigned _ _ _ _ h).1.lists hst.firstShaped hlist'
      exact ⟨lists_nil hlists', lists_nil hlists⟩

/-- **A game that is won** started from one signed set, and has struck out all
of it. -/
theorem won (hsigned : AllSigned murmurHash3 rounds st₀ F₀ S₀)
    (hst₀ : st₀.Stands murmurHash3 F₀ S₀) (hin : st₀.inBlock = ∅) (hnot : st₀.notInBlock = ∅)
    {depth : ℕ} {st : PingPong} (h : Rally murmurHash3 rounds st₀ F₀ S₀ depth st 0 0) :
    F₀ = S₀ ∧ ∀ x, (x ∈ st.inBlock ↔ F₀ x = 1) ∧ (x ∈ st.notInBlock ↔ F₀ x = -1) := by
  have heq : F₀ = S₀ := by
    obtain hsub | hsub := h.sub
    · exact sub_eq_zero.mp (hsub.symm.trans (sub_self 0))
    · exact sub_eq_zero.mp (hsub.symm.trans (sub_self 0))
  subst heq
  refine ⟨rfl, fun x => ?_⟩
  obtain ⟨-, hsettled⟩ := h.settled hsigned hst₀ hin hnot
  obtain ⟨hzero, hi, hn⟩ | ⟨-, hone, hi, hn⟩ | ⟨-, hone, hi, hn⟩ := hsettled x
  · have hzero' : F₀ x = 0 := hzero.symm
    exact ⟨iff_of_false hi (by omega), iff_of_false hn (by omega)⟩
  · exact ⟨iff_of_true hi hone, iff_of_false hn (by omega)⟩
  · exact ⟨iff_of_false hi (by omega), iff_of_true hn hone⟩

/-- How the tables of a game differ.  An id of `A` is in the first table, or
with the other sign in the second one; any other id is alike in both. -/
def Apart (A : Finset ℕ) (F S : ℕ →₀ ℤ) : Prop :=
  ∀ x, (x ∉ A ∧ F x = S x ∧ (S x = 0 ∨ S x = 1 ∨ S x = -1)) ∨
    x ∈ A ∧ (F x = 1 ∧ S x = 0 ∨ F x = 0 ∧ S x = -1)

namespace Apart

variable {A : Finset ℕ} {F S E : ℕ →₀ ℤ} {ok : Bool} {positive negative : Listing}

theorem signed (h : Apart A F S) : Iblt.Signed F ∧ Iblt.Signed S := by
  constructor
  · intro x hx
    have hne := Finsupp.mem_support_iff.mp hx
    obtain ⟨-, heq, hsign⟩ | ⟨-, hF | hF⟩ := h x <;> omega
  · intro x hx
    have hne := Finsupp.mem_support_iff.mp hx
    obtain ⟨-, heq, hsign⟩ | ⟨-, hF | hF⟩ := h x <;> omega

theorem strike (h : Apart A F S)
    (hlists : Iblt.Lists F ok positive negative E ∨ Iblt.Lists S ok positive negative E) :
    Apart A (struck F positive negative) (struck S positive negative) := by
  intro x
  obtain hlists | hlists := hlists
  all_goals
    rw [struck_self hlists, struck_other hlists, Finsupp.add_apply, Finsupp.sub_apply]
    obtain ⟨hx, hFS, hsign⟩ | ⟨hx, hFS⟩ := h x
    · left
      obtain hE | ⟨hE, -⟩ := hlists.left x <;> exact ⟨hx, by omega, by omega⟩
    · right
      obtain hE | ⟨hE, -⟩ := hlists.left x <;> exact ⟨hx, by omega⟩

end Apart

/-- The ids of a game, with their signs. -/
structure Within (K A : Finset ℕ) (F S : ℕ →₀ ℤ) : Prop where
  apart : Apart A F S ∨ Apart A S F
  first : F.support ⊆ K
  second : S.support ⊆ K

namespace Within

variable {K A : Finset ℕ} {F S : ℕ →₀ ℤ}

theorem swap (h : Within K A F S) : Within K A S F := ⟨h.apart.symm, h.second, h.first⟩

theorem signed (h : Within K A F S) : Iblt.Signed F ∧ Iblt.Signed S :=
  h.apart.elim (·.signed) (·.signed.symm)

/-- Striking out a listing adds no id. -/
theorem strike (h : Within K A F S) {E : ℕ →₀ ℤ} {ok : Bool} {positive negative : Listing}
    (hlists : Iblt.Lists F ok positive negative E ∨ Iblt.Lists S ok positive negative E) :
    Within K A (struck F positive negative) (struck S positive negative) := by
  refine ⟨h.apart.imp (·.strike hlists) (·.strike hlists.symm), fun x hx => ?_, fun x hx => ?_⟩
  all_goals
    by_contra hout
    have hF := Finsupp.notMem_support_iff.mp fun hx => hout (h.first hx)
    have hS := Finsupp.notMem_support_iff.mp fun hx => hout (h.second hx)
    refine Finsupp.mem_support_iff.mp hx ?_
    obtain hlists | hlists := hlists
    · have hE := hlists.left x
      simp only [struck_self hlists, struck_other hlists, Finsupp.add_apply, Finsupp.sub_apply]
      omega
    · have hE := hlists.left x
      simp only [struck_self hlists, struck_other hlists, Finsupp.add_apply, Finsupp.sub_apply]
      omega

/-- **No call has other ids**, or other signs. -/
theorem rally (h₀ : Within K A F₀ S₀) (hst₀ : st₀.Stands murmurHash3 F₀ S₀)
    (hsigned : AllSigned murmurHash3 rounds st₀ F₀ S₀) {depth : ℕ} {st : PingPong}
    (h : Rally murmurHash3 rounds st₀ F₀ S₀ depth st F S) : Within K A F S :=
  h.invariant (P := fun _ F S => Within K A F S)
    (fun h _ => ⟨h.stands hsigned hst₀, hsigned _ _ _ _ h⟩) h₀ swap
    fun h _ hlists _ => h.strike hlists

/-- **A game over clear ids** is tested truthfully. -/
theorem allTruthful (h₀ : Within K A F₀ S₀) (hclear : Iblt.Clear murmurHash3 K)
    (hst₀ : st₀.Stands murmurHash3 F₀ S₀) (rounds : ℕ) :
    AllTruthful murmurHash3 rounds st₀ F₀ S₀ := by
  have htrue : ∀ {st : PingPong} {F S : ℕ →₀ ℤ}, Within K A F S → st.Stands murmurHash3 F S →
      st.first.Truthful murmurHash3 F ∧ st.second.Truthful murmurHash3 S := fun h hst =>
    ⟨Iblt.truthful_of_clear hclear h.first h.signed.1 hst.first hst.firstShaped.bucketsPerHash_pos,
      Iblt.truthful_of_clear hclear h.second h.signed.2 hst.second
        hst.secondShaped.bucketsPerHash_pos⟩
  intro depth st F S h
  obtain ⟨hst, hwithin⟩ := h.invariant (P := fun st F S => st.Stands murmurHash3 F S ∧ Within K A F S)
    (fun _ h => ⟨h.1, ⟨h.1.first, (htrue h.2 h.1).1⟩, h.1.second, (htrue h.2 h.1).2⟩)
    ⟨hst₀, h₀⟩ (fun h => ⟨h.1.swap, h.2.swap⟩)
    fun h hst hlists hstrike => ⟨(hst.of_lists hlists hstrike).1, h.2.strike hlists⟩
  exact htrue hwithin hst

end Within

end Game

/-! ## the second protocol -/

/-- `ReconstructRecoveryBlock` by what is listed. -/
theorem reconstructRecoveryBlock_eq (rounds : ℕ) {response : RecoveryResponse} {Z : ExtTreeSet ℕ}
    {diff2 : Iblt}
    (hdiff2 : differenceTable false murmurHash3 response.iblt (addMissing Z response.missing) =
      .ok diff2) :
    reconstructRecoveryBlock false murmurHash3 rounds response Z =
      (diff2.listEntries false murmurHash3 rounds [] [] >>= fun r =>
        .ok (if r.1 then (.success, adjust (addMissing Z response.missing) r.2.2 r.2.1)
          else (.failFatal, addMissing Z response.missing))) := by
  unfold reconstructRecoveryBlock
  dsimp only
  rw [hdiff2]
  rfl

/-- What becomes of a direct decoding. -/
theorem processRecoveryResponse_direct {rounds : ℕ} {response : RecoveryResponse}
    {state : GrapheneState} {Z : ExtTreeSet ℕ}
    (hrun : reconstructRecoveryBlock false murmurHash3 rounds response state.candidateIds =
      .ok (.success, Z)) (hsum : idChecksum Z.toList = response.txChecksum) :
    processRecoveryResponse false murmurHash3 rounds response state = .ok (some Z) := by
  unfold processRecoveryResponse
  rw [hrun]
  change (if idChecksum Z.toList = response.txChecksum then _ else _) = _
  rw [if_pos hsum]
  rfl

/-- The ids that a game leaves. -/
def afterGame (Z : ExtTreeSet ℕ) (st : PingPong) : ExtTreeSet ℕ :=
  st.notInBlock.toList.foldl (fun ids id => ids.erase id)
    (st.inBlock.toList.foldl (fun ids id => ids.insert id) Z)

theorem mem_afterGame {Z : ExtTreeSet ℕ} {st : PingPong} {x : ℕ} :
    x ∈ afterGame Z st ↔ (x ∈ Z ∨ x ∈ st.inBlock) ∧ x ∉ st.notInBlock := by
  rw [afterGame, mem_foldl_set_erase, mem_foldl_set_insert, ExtTreeSet.mem_toList]
  simp only [ExtTreeSet.mem_toList, exists_eq_right']

/-- A game that has struck out the difference to a set leaves that set. -/
theorem idFinset_afterGame {S : Finset ℕ} {Z : ExtTreeSet ℕ} {st : PingPong}
    (hin : ∀ x, x ∈ st.inBlock ↔ x ∈ S ∧ x ∉ idFinset Z)
    (hnot : ∀ x, x ∈ st.notInBlock ↔ x ∈ idFinset Z ∧ x ∉ S) : idFinset (afterGame Z st) = S := by
  ext x
  rw [mem_idFinset, mem_afterGame, hin, hnot, mem_idFinset]
  tauto

/-- What becomes of a game of ping-pong. -/
theorem processRecoveryResponse_game {rounds : ℕ} {response : RecoveryResponse}
    {state : GrapheneState} {Z : ExtTreeSet ℕ} {diff1 diff2 : Iblt}
    (hrun : reconstructRecoveryBlock false murmurHash3 rounds response state.candidateIds =
      .ok (.failFatal, Z)) (hstate : state.diff1 = some diff1)
    (hdiff2 : differenceTable false murmurHash3 response.iblt Z = .ok diff2) :
    processRecoveryResponse false murmurHash3 rounds response state =
      (tryPingPong false murmurHash3 rounds (max diff1.hashTableSize diff2.hashTableSize + 2)
        { first := diff1, second := diff2, inBlock := ∅, notInBlock := ∅ } 0 >>= fun r =>
        .ok (if r.1 = .success ∧ (afterGame Z r.2).size = state.txCount ∧
            idChecksum (afterGame Z r.2).toList = response.txChecksum then some (afterGame Z r.2)
          else none)) := by
  unfold processRecoveryResponse
  rw [hrun, hstate]
  change (differenceTable false murmurHash3 response.iblt Z >>= _) = _
  rw [hdiff2]
  rfl

/-- **An honest answer**: a table of the block, its checksum, and ids of it. -/
theorem recoveryResponse_spec {b : Block} {request : RecoveryRequest} {response : RecoveryResponse}
    (hkeyed : b.txs.Keyed) (hpos : 0 < (request.b + request.yStar).toInt)
    (h : recoveryResponse false murmurHash3 b request = .ok response) :
    response.iblt.WellShaped ∧ response.iblt.Encodes murmurHash3 (ofIds b.txs.idSet) ∧
      response.txChecksum = txChecksum b.txs ∧ ∀ x ∈ response.missing, x ∈ b.txs.idSet := by
  obtain ⟨J, hJ, hshaped, hencodes⟩ := secondIblt_spec murmurHash3 b request.receiverBloom hkeyed hpos
  rw [recoveryResponse, hJ] at h
  cases h
  refine ⟨hshaped, hencodes, rfl, fun x hx => ?_⟩
  rw [TxSet.idSet, List.mem_toFinset]
  exact (List.mem_filter.mp hx).1

/-- **The second protocol agrees with full relay.**  When it succeeds, by
direct decoding or by ping-pong, it gives the ids of the block, and its
checksum never fails. -/
theorem protocol2_agrees {rounds : ℕ} {arith : Arithmetic} {b : Block} {m : ℕ} {bf : BloomFilter}
    {iblt diff1 diff2 : Iblt} {state : GrapheneState} {request : RecoveryRequest}
    {response : RecoveryResponse} (hkeyed : b.txs.Keyed)
    (hbuild : buildSenderComponents false murmurHash3 arith b.txs m = .ok (some (bf, iblt)))
    (hdiff1 : differenceTable false murmurHash3 iblt state.candidateIds = .ok diff1)
    (hstate : state.diff1 = some diff1) (hpos : 0 < (request.b + request.yStar).toInt)
    (hresponse : recoveryResponse false murmurHash3 b request = .ok response)
    (hdiff2 : differenceTable false murmurHash3 response.iblt
      (addMissing state.candidateIds response.missing) = .ok diff2)
    (hlarge1 : 2 ^ 24 ≤ iblt.hashTable.length →
      diff1.Encodes murmurHash3 (symDiff b.txs state.candidateIds))
    (hlarge2 : 2 ^ 24 ≤ response.iblt.hashTable.length → diff2.Encodes murmurHash3
      (symDiff b.txs (addMissing state.candidateIds response.missing)))
    (htrue : AllTruthful murmurHash3 rounds
      { first := diff1, second := diff2, inBlock := ∅, notInBlock := ∅ }
      (symDiff b.txs state.candidateIds)
      (symDiff b.txs (addMissing state.candidateIds response.missing))) :
    (∀ ids, processRecoveryResponse false murmurHash3 rounds response state = .ok (some ids) →
      idFinset ids = b.txs.idSet) ∧
    processRecoveryResponse false murmurHash3 rounds response state ≠ .error .checksum := by
  obtain ⟨hJshaped, hJencodes, hanswer, -⟩ := recoveryResponse_spec hkeyed hpos hresponse
  obtain ⟨hshaped, hencodes⟩ := buildSenderComponents_spec hkeyed hbuild
  have hshaped2 := differenceTable_wellShaped hJshaped hdiff2
  have hst₀ : PingPong.Stands murmurHash3
      { first := diff1, second := diff2, inBlock := ∅, notInBlock := ∅ }
      (symDiff b.txs state.candidateIds)
      (symDiff b.txs (addMissing state.candidateIds response.missing)) :=
    ⟨differenceTable_wellShaped hshaped hdiff1, hshaped2,
      encodes_differenceTable hencodes hshaped hdiff1 hlarge1,
      encodes_differenceTable hJencodes hJshaped hdiff2 hlarge2⟩
  have hsigned := htrue.allSigned hst₀
  obtain ⟨-, hsigned2⟩ := hsigned 0 _ _ _ .start
  have hrun := reconstructRecoveryBlock_eq rounds hdiff2
  obtain ⟨herr, -⟩ | ⟨ok, positive, negative, E, hlist, hlists⟩ :=
    hsigned2.listEntries hshaped2 rounds
  · have herr' : processRecoveryResponse false murmurHash3 rounds response state =
        .error .rounds := by
      unfold processRecoveryResponse
      rw [hrun, herr]
      rfl
    rw [herr']
    exact ⟨nofun, nofun⟩
  · rw [hlist] at hrun
    cases ok with
    | true =>
        have hids := fun x => mem_adjust_of_lists hlists x
        have hsum : idChecksum (adjust (addMissing state.candidateIds response.missing) negative
            positive).toList = response.txChecksum := by
          rw [hanswer, TxSet.txChecksum_eq, toList_eq_txIds hkeyed hids]
        rw [processRecoveryResponse_direct hrun hsum]
        refine ⟨fun ids heq => ?_, nofun⟩
        cases heq
        ext x
        rw [mem_idFinset, hids]
    | false =>
        rw [processRecoveryResponse_game hrun hstate hdiff2]
        obtain ⟨herr, -⟩ | ⟨status, st, hgame, depth, F, S, hrally, hover⟩ := tryPingPong_spec hsigned
          (max diff1.hashTableSize diff2.hashTableSize + 2) .start hst₀
        · rw [herr]
          exact ⟨nofun, nofun⟩
        · rw [hgame]
          refine ⟨fun ids heq => ?_, nofun⟩
          have heq' := Except.ok.inj heq
          split at heq'
          · next hsuccess =>
              obtain ⟨rfl, rfl⟩ := Over.eq_zero hsigned hst₀ hrally (hsuccess.1 ▸ hover)
              obtain ⟨hsame, hstruck⟩ := won hsigned hst₀ rfl rfl hrally
              rw [← Option.some.inj heq']
              refine idFinset_afterGame (fun x => ?_) fun x => ?_
              · rw [(hstruck x).1, hsame, ofIds_sub_eq_one]
              · rw [(hstruck x).2, hsame, ofIds_sub_eq_neg_one]
          · cases heq'

/-! ## a block with one transaction missing -/

theorem within_single (x : ℕ) : Within {x} ∅ (Finsupp.single x 1) (Finsupp.single x 1) where
  apart := by
    refine .inl fun y => .inl ⟨Finset.notMem_empty y, rfl, ?_⟩
    rw [Finsupp.single_apply]
    split <;> simp
  first := Finsupp.support_single_subset
  second := Finsupp.support_single_subset

/-- The receiver's state, who has the second of two transactions. -/
def twoState : GrapheneState where
  header := {}
  txCount := 2
  candidateIds := {9}
  diff1 := some twoDiff
  waitingProtocol2 := true

/-- A request with a filter that everything passes. -/
def twoRequest : RecoveryRequest where
  blockHash := 0
  b := 2
  yStar := 1
  receiverBloom := { contains := fun _ => true }

/-- The answer: a table of eighteen entries, and no id. -/
def twoResponse : RecoveryResponse where
  blockHash := 0
  txChecksum := 14
  iblt := (lookupTable false (· + ·) 3 [7, 9]).toOption.getD ⟨0, 0, []⟩
  missing := []

/-- The difference that the receiver makes of it. -/
def twoSecondDiff : Iblt :=
  (differenceTable false (· + ·) twoResponse.iblt {9}).toOption.getD ⟨0, 0, []⟩

theorem recoveryResponse_two :
    recoveryResponse false (· + ·) { txs := twoTxs } twoRequest = .ok twoResponse := by
  have hids : txIdsFromBlock twoTxs = [7, 9] := by decide +kernel
  have hitems : itemCount 2 1 = 3 := by decide +kernel
  have htable : lookupTable false (· + ·) 3 [7, 9] = .ok twoResponse.iblt := by decide +kernel
  have hsum : txChecksum twoTxs = 14 := by decide +kernel
  unfold recoveryResponse secondIblt
  dsimp only [twoRequest]
  rw [hids, hitems, htable, hsum]
  rfl

theorem protocol2_agrees_two :
    ∃ ids, processRecoveryResponse false (· + ·) 3 twoResponse twoState = .ok (some ids) ∧
      idFinset ids = {7, 9} := by
  have hdiff1 : differenceTable false (· + ·) twoTable {9} = .ok twoDiff := by decide +kernel
  have hdiff2 : differenceTable false (· + ·) twoResponse.iblt {9} = .ok twoSecondDiff := by
    decide +kernel
  have hkeyed : ({ txs := twoTxs } : Block).txs.Keyed := TxSet.keyed_ofList _
  have hpos : 0 < (twoRequest.b + twoRequest.yStar).toInt := by decide
  -- both differences stand for the missing id
  obtain ⟨d, hd, hdshape, hdencodes⟩ := differenceTable_spec tableOf_two.encodes
    tableOf_two.shaped tableOf_two.size_lt {9}
  rw [hdiff1, Except.ok.injEq] at hd
  subst hd
  obtain ⟨hJshaped, hJencodes, -⟩ := recoveryResponse_spec hkeyed hpos recoveryResponse_two
  obtain ⟨d, hd, hdshape', hdencodes'⟩ := differenceTable_spec hJencodes hJshaped
    (by decide +kernel) {9}
  rw [hdiff2, Except.ok.injEq] at hd
  subst hd
  have hone : symDiff twoTxs {9} = Finsupp.single 7 1 := symDiff_two
  have hst₀ : PingPong.Stands (· + ·)
      { first := twoDiff, second := twoSecondDiff, inBlock := ∅, notInBlock := ∅ }
      (symDiff twoTxs {9}) (symDiff twoTxs {9}) :=
    ⟨hdshape.wellShaped tableOf_two.shaped, hdshape'.wellShaped hJshaped, hdencodes, hdencodes'⟩
  rw [hone] at hst₀
  have htrue := (within_single 7).allTruthful (Iblt.clear_singleton 7) hst₀ 3
  rw [← hone] at htrue
  have hstate : twoState.diff1 = some twoDiff := rfl
  obtain ⟨hids, -⟩ := protocol2_agrees hkeyed buildSenderComponents_two hdiff1
    hstate hpos recoveryResponse_two hdiff2 (fun _ => hdencodes) (fun _ => hdencodes') htrue
  have hrun : (processRecoveryResponse false (· + ·) 3 twoResponse twoState).toOption.join.isSome =
      true := by decide +kernel
  cases hprocess : processRecoveryResponse false (· + ·) 3 twoResponse twoState with
  | error e =>
      rw [hprocess] at hrun
      cases hrun
  | ok r =>
      cases r with
      | none =>
          rw [hprocess] at hrun
          cases hrun
      | some ids => exact ⟨ids, rfl, (hids ids hprocess).trans (by decide +kernel)⟩

end GrapheneProtocol

end GhostDag
