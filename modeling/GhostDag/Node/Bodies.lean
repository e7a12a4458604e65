import GhostDag.Node.Wire

/-!
# GhostDag.Node.Bodies

Whole histories of the shared body table (`BlockBodyStore` of `dag.cc`).

The table answers a call from the first set interned under the same block id
since the last `Clear`, provided that set agrees with the new one in size and
in checksum.  Sets that agree in both may still differ, so a history gets its
own ids back on every call exactly when it interns no such pair
(`faithful_iff`).
-/

namespace GhostDag

open Std (ExtTreeMap)
open Containers

/-- The set of transaction ids of a body. -/
def TxSet.idSet (txs : TxSet) : Finset Nat := (txs.list.map Transaction.txId).toFinset

namespace BlockBodyStore

/-! ## histories -/

/-- A call to the table. -/
inductive Call
  | intern (blockId : Nat) (txs : TxSet)
  | clear

/-- The table after a call. -/
def call (table : BlockBodyStore) : Call → BlockBodyStore
  | .intern blockId txs => (table.intern blockId txs).2
  | .clear => ∅

/-- The table after a history that starts with an empty one. -/
def after (calls : List Call) : BlockBodyStore := calls.foldl call ∅

/-- Every `Intern` of the history returns a body with the ids it was given. -/
def Faithful (calls : List Call) : Prop :=
  ∀ (past : List Call) (blockId : Nat) (txs : TxSet), past ++ [.intern blockId txs] <+: calls →
    ((after past).intern blockId txs).1.idSet = txs.idSet

/-! ## what the table holds -/

/-- The sets interned since the last `Clear`, oldest first. -/
def sinceClear (calls : List Call) : List (Nat × TxSet) :=
  calls.foldl
    (fun l => fun
      | .intern blockId txs => l ++ [(blockId, txs)]
      | .clear => [])
    []

/-- The first set interned under an id since the last `Clear`. -/
def firstInterned (calls : List Call) (blockId : Nat) : Option TxSet :=
  ((sinceClear calls).find? fun entry => entry.1 = blockId).map Prod.snd

theorem after_append (past : List Call) (c : Call) : after (past ++ [c]) = (after past).call c := by
  simp [after]

theorem firstInterned_clear (past : List Call) (blockId : Nat) :
    firstInterned (past ++ [.clear]) blockId = none := by
  simp [firstInterned, sinceClear]

theorem firstInterned_intern (past : List Call) (blockId' : Nat) (txs : TxSet) (blockId : Nat) :
    firstInterned (past ++ [.intern blockId' txs]) blockId =
      (firstInterned past blockId).or (if blockId' = blockId then some txs else none) := by
  have hsince : sinceClear (past ++ [.intern blockId' txs]) =
      sinceClear past ++ [(blockId', txs)] := by
    simp [sinceClear]
  rw [firstInterned, firstInterned, hsince, List.find?_append]
  cases (sinceClear past).find? fun entry => entry.1 = blockId with
  | some entry => rfl
  | none =>
      by_cases hid : blockId' = blockId
      · simp [hid]
      · simp [hid]

/-- An interned set enters the table only under a new id. -/
theorem getElem?_intern (table : BlockBodyStore) (blockId' : Nat) (txs : TxSet) (blockId : Nat) :
    (table.intern blockId' txs).2[blockId]? =
      (table[blockId]?).or (if blockId' = blockId then some txs else none) := by
  rw [intern]
  cases hget : table[blockId']? with
  | some body =>
      have hsnd : (if body.size = txs.size ∧ txChecksum body = txChecksum txs then (body, table)
          else (txs, table)).2 = table := by split <;> rfl
      rw [hsnd]
      by_cases hid : blockId' = blockId
      · rw [← hid, hget]
        rfl
      · rw [if_neg hid, Option.or_none]
  | none =>
      rw [getElem?_insert]
      by_cases hid : blockId' = blockId
      · rw [if_pos hid.symm, if_pos hid, ← hid, hget]
        rfl
      · rw [if_neg (Ne.symm hid), if_neg hid, Option.or_none]

/-- **The table holds the first set interned under each id.** -/
theorem getElem?_after (calls : List Call) (blockId : Nat) :
    (after calls)[blockId]? = firstInterned calls blockId := by
  induction calls using List.reverseRecOn with
  | nil => simp [after, firstInterned, sinceClear]
  | append_singleton past c ih =>
      rw [after_append]
      cases c with
      | intern blockId' txs =>
          rw [call, getElem?_intern, ih, firstInterned_intern]
      | clear =>
          rw [firstInterned_clear]
          exact ExtTreeMap.getElem?_empty

/-! ## when a history is faithful -/

/-- Two bodies that the table takes for one. -/
def Alike (body txs : TxSet) : Prop :=
  body.size = txs.size ∧ txChecksum body = txChecksum txs

instance (body txs : TxSet) : Decidable (Alike body txs) :=
  inferInstanceAs (Decidable (_ ∧ _))

/-- No set of the history is taken for the first one under its id without
having the ids of that one. -/
def CollisionFree (calls : List Call) : Prop :=
  ∀ (past : List Call) (blockId : Nat) (txs body : TxSet),
    past ++ [.intern blockId txs] <+: calls → firstInterned past blockId = some body →
      Alike body txs → body.idSet = txs.idSet

/-- What `Intern` returns, by the set that the table holds under the id. -/
theorem intern_fst (table : BlockBodyStore) (blockId : Nat) (txs : TxSet) :
    (table.intern blockId txs).1 =
      match table[blockId]? with
      | some body => if Alike body txs then body else txs
      | none => txs := by
  rw [intern]
  cases table[blockId]? with
  | some body => exact apply_ite Prod.fst _ _ _
  | none => rfl

/-- One call gives the ids back unless the first set under the id is taken
for the new one and differs from it. -/
theorem idSet_intern_iff (past : List Call) (blockId : Nat) (txs : TxSet) :
    ((after past).intern blockId txs).1.idSet = txs.idSet ↔
      ∀ body, firstInterned past blockId = some body → Alike body txs →
        body.idSet = txs.idSet := by
  rw [intern_fst, getElem?_after]
  cases hfirst : firstInterned past blockId with
  | none => simp
  | some body =>
      by_cases halike : Alike body txs
      · simp [halike]
      · simp [halike]

/-- **Bodies stay apart exactly in the histories without a collision.** -/
theorem faithful_iff (calls : List Call) : Faithful calls ↔ CollisionFree calls := by
  constructor
  · intro h past blockId txs body hpre
    exact (idSet_intern_iff past blockId txs).mp (h past blockId txs hpre) body
  · intro h past blockId txs hpre
    exact (idSet_intern_iff past blockId txs).mpr fun body => h past blockId txs body hpre

/-- Two sets of two transactions each, with the same exclusive or of ids. -/
theorem not_faithful : ¬ Faithful
    [.intern 5 (TxSet.ofList [⟨1, 100, 0⟩, ⟨2, 100, 0⟩]),
      .intern 5 (TxSet.ofList [⟨0, 100, 0⟩, ⟨3, 100, 0⟩])] := by
  intro h
  have hids := h [.intern 5 (TxSet.ofList [⟨1, 100, 0⟩, ⟨2, 100, 0⟩])] 5
    (TxSet.ofList [⟨0, 100, 0⟩, ⟨3, 100, 0⟩]) List.prefix_rfl
  revert hids
  decide +kernel

end BlockBodyStore

end GhostDag
