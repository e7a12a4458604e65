import GhostDag.Graphene.TakingOut
import GhostDag.Lib.Cores

/-!
# GhostDag.Graphene.Leftover

What `IBLT::listEntries` leaves.

The keys that are not listed hide each other: each of them shares its entries
with others.  They are the core of the keys of the table, whatever the order
in which the entries are scanned (`listEntries_core`).
-/

namespace GhostDag

namespace Iblt

open Cores

variable {murmurHash3 : ℕ → ℕ → ℕ} {t u : Iblt} {D E : ℕ →₀ ℤ}

/-- The keys and the entries of a table. -/
abbrev HeldAt (murmurHash3 : ℕ → ℕ → ℕ) (t : Iblt) : ℕ → ℕ → Prop :=
  Holds murmurHash3 t.numHashes t.bucketsPerHash

theorem SameShape.heldAt (h : t.SameShape u) : u.HeldAt murmurHash3 = t.HeldAt murmurHash3 := by
  rw [HeldAt, HeldAt, h.numHashes, h.bucketsPerHash]

/-- A key that is alone in an entry is shown by it. -/
theorem stuck_of_idle (hb : 0 < t.bucketsPerHash) (h : Encodes murmurHash3 t D) (hsigned : Signed D)
    (hidle : Idle murmurHash3 t) : Stuck (t.HeldAt murmurHash3) D.support := by
  intro x hx j hold
  by_contra hnone
  have hone : ∀ y ∈ D.support, t.HeldAt murmurHash3 y j → y = x := fun y hy hold' => by
    by_contra hne
    exact hnone ⟨y, hy, hne, hold'⟩
  have hlt : j < t.hashTable.length := by
    obtain ⟨i, hi, rfl⟩ := hold
    exact slot_lt_length hb hi x
  have he : t.hashTable[j]? = some t.hashTable[j] := List.getElem?_eq_getElem hlt
  have hsums := h.sums_of_unique hb he hx hold hone
  rw [smul_key (hsigned x hx)] at hsums
  have hshows : Shows murmurHash3 t.hashTable[j].sums x (D x) := ⟨hsigned x hx, hsums⟩
  exact Bool.false_ne_true ((hidle _ (List.mem_of_getElem? he)).symm.trans hshows.isPure.1)

/-- **Peeling keeps the core** of the keys. -/
theorem PartialPeeling.core_eq (htrue : Truthful murmurHash3 t D)
    (h : PartialPeeling murmurHash3 t D u E) :
    core (t.HeldAt murmurHash3) E.support = core (t.HeldAt murmurHash3) D.support := by
  induction h with
  | start => rfl
  | @peel u u' E j x e h he hpure hx hold _ ih =>
      obtain ⟨y, -, hone⟩ := (htrue u E h j e he).1 hpure
      obtain rfl := hone x ⟨hx, hold⟩
      have herase : core (u.HeldAt murmurHash3) (E.support.erase x) =
          core (u.HeldAt murmurHash3) E.support :=
        core_erase hold fun z hz hold' => hone z ⟨hz, hold'⟩
      rw [Finsupp.support_erase, ← ih, ← h.shape.heldAt, herase]

/-- **`listEntries` leaves the core**, and succeeds if that is empty. -/
theorem listEntries_core (hk : 0 < t.numHashes) (hb : 0 < t.bucketsPerHash)
    (h : Encodes murmurHash3 t D) (htrue : Truthful murmurHash3 t D) (hsigned : Signed D)
    {rounds : ℕ} {ok : Bool} {positive negative : Listing}
    (hlist : t.listEntries false murmurHash3 rounds [] [] = .ok (ok, positive, negative)) :
    ∃ E, Lists D ok positive negative E ∧ E.support = core (t.HeldAt murmurHash3) D.support ∧
      (ok = true ↔ core (t.HeldAt murmurHash3) D.support = ∅) := by
  obtain ⟨st, hpeel, hret⟩ := Loops.bind_eq_ok hlist
  obtain ⟨herr, -⟩ | ⟨st', E, hrun, hst⟩ := (peeling_start h).peel htrue hb rounds
  · rw [hpeel] at herr
    cases herr
  · obtain rfl := Except.ok.inj (hpeel.symm.trans hrun)
    have hlists := hst.lists hk hb htrue
    cases hret
    have hsignedE : Signed E := by
      intro x hx
      have hne := Finsupp.mem_support_iff.mp hx
      obtain heq | ⟨hzero, -⟩ := hst.left x
      · exact heq ▸ hsigned x (Finsupp.mem_support_iff.mpr (heq ▸ hne))
      · exact absurd hzero hne
    have hstuck := stuck_of_idle (hst.shape.bucketsPerHash ▸ hb) hst.encodes hsignedE
      (idle_of_peel hpeel)
    rw [hst.shape.heldAt] at hstuck
    have hcore := (core_eq_self_iff.mpr hstuck).symm.trans (hst.partialPeeling.core_eq htrue)
    refine ⟨E, hlists, hcore, fun hok => ?_, fun hempty => ?_⟩
    · rw [← hcore, hlists.eq_zero hok, Finsupp.support_zero]
    · -- nothing is left, so every entry is empty
      have hE : E = 0 := Finsupp.support_eq_empty.mp (hcore.trans hempty)
      have hencodes := hst.encodes
      rw [hE, Encodes, map_zero] at hencodes
      refine List.all_eq_true.mpr fun e he => (HashTableEntry.empty_iff e).mpr ?_
      obtain ⟨j, hj⟩ := List.mem_iff_getElem?.mp (List.mem_of_mem_take he)
      rw [← tableSums_of_getElem? hj, hencodes, Pi.zero_apply]

end Iblt

end GhostDag
