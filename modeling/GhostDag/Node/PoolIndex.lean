import Std.Data.String.ToNat
import GhostDag.Node.Probing

/-!
# GhostDag.Node.PoolIndex

The two indices of the transaction pool (`mempool.cc`) are one multiset.

`Mempool.Linked` says how they hang together: the fee multimap is a
rearrangement of the pointers to the items of the buckets, so each side
leads to its own partner on the other, whatever was inserted twice, has the
same fee or collides.  Over that, every call acts on the multiset
`contents` of `(minerId, txId, fee)` the way its name says (`refines_run`).
-/

namespace GhostDag

open Containers

/-- A pooled transaction, as the callers of the pool see it. -/
structure PoolEntry where
  minerId : Nat
  txId : Nat
  fee : Nat
  deriving DecidableEq

namespace HtabItem

/-- The miner of an item: the number before the dot of its key. -/
def minerId (x : HtabItem) : Nat :=
  (String.ofList (x.key.toList.take
    (x.key.toList.length - ("." ++ toString x.txId).toList.length))).toNat?.getD 0

def entry (x : HtabItem) : PoolEntry := ⟨x.minerId, x.txId, x.fee⟩

theorem minerId_eq {x : HtabItem} {minerId : ℕ} (h : x.key = Mempool.key minerId x.txId) :
    x.minerId = minerId := by
  have hlist : x.key.toList =
      (toString minerId).toList ++ ("." ++ toString x.txId).toList := by
    rw [h, Mempool.key, String.append_assoc, String.toList_append]
  rw [HtabItem.minerId, hlist, List.length_append, Nat.add_sub_cancel, List.take_left,
    String.ofList_toList]
  exact congrArg (Option.getD · 0) (Nat.toNat?_repr minerId)

end HtabItem

namespace Mempool

/-! ## items with their buckets -/

/-- The items of buckets numbered from `i`, each with its bucket. -/
def locate : Nat → List (List HtabItem) → List (Nat × HtabItem)
  | _, [] => []
  | i, b :: bs => b.map (Prod.mk i) ++ locate (i + 1) bs

/-- Every item of the pool with its bucket. -/
def located (p : Mempool) : List (Nat × HtabItem) := locate 0 p.htabItems

/-- The multimap entry that belongs to an item in a bucket. -/
def pointer (l : Nat × HtabItem) : MultimapItem where
  fee := l.2.fee
  item := l.2.handle
  index := l.1
  handle := l.2.multimapIterator

/-- The multiset that the pool stands for. -/
def contents (p : Mempool) : Multiset PoolEntry := (p.located.map fun l => l.2.entry : List _)

theorem mem_locate {bs : List (List HtabItem)} {i k : ℕ} {x : HtabItem} :
    (k, x) ∈ locate i bs ↔ i ≤ k ∧ x ∈ bs.getD (k - i) [] := by
  induction bs generalizing i with
  | nil => simp [locate]
  | cons b bs ih =>
      rw [locate, List.mem_append, ih, List.mem_map]
      constructor
      · rintro (⟨y, hy, heq⟩ | ⟨hle, hx⟩)
        · obtain ⟨rfl, rfl⟩ := Prod.mk.inj heq
          exact ⟨le_rfl, by simpa using hy⟩
        · refine ⟨by omega, ?_⟩
          rw [show k - i = (k - (i + 1)) + 1 by omega]
          exact hx
      · rintro ⟨hle, hx⟩
        obtain rfl | hlt := Nat.eq_or_lt_of_le hle
        · exact .inl ⟨x, by simpa using hx, rfl⟩
        · refine .inr ⟨hlt, ?_⟩
          rw [show k - i = (k - (i + 1)) + 1 by omega] at hx
          exact hx

theorem mem_located {p : Mempool} {i : ℕ} {x : HtabItem} :
    (i, x) ∈ p.located ↔ p.Stores i x := by
  rw [located, mem_locate]
  exact and_iff_right (Nat.zero_le i)

/-- One more item in a bucket is one more item. -/
theorem locate_modify_cons (bs : List (List HtabItem)) {i k : ℕ} (hk : k < bs.length)
    (x : HtabItem) : (locate i (bs.modify k (x :: ·))).Perm ((i + k, x) :: locate i bs) := by
  induction bs generalizing i k with
  | nil => simp at hk
  | cons b bs ih =>
      cases k with
      | zero => exact List.Perm.refl _
      | succ k =>
          rw [List.modify_succ_cons, locate, locate]
          have hrest := ih (i := i + 1) (Nat.lt_of_succ_lt_succ hk)
          rw [show i + (k + 1) = i + 1 + k by omega]
          exact (hrest.append_left _).trans List.perm_middle

/-- Filtering one bucket filters the items located there. -/
theorem locate_modify_filter (bs : List (List HtabItem)) (i k : ℕ) (q : HtabItem → Bool) :
    locate i (bs.modify k (List.filter q)) =
      (locate i bs).filter fun l => l.1 ≠ i + k || q l.2 := by
  induction bs generalizing i k with
  | nil => cases k <;> rfl
  | cons b bs ih =>
      cases k with
      | zero =>
          have hrest : (locate (i + 1) bs).filter (fun l => l.1 ≠ i + 0 || q l.2) =
              locate (i + 1) bs := by
            rw [List.filter_eq_self]
            intro l hl
            have hle := (mem_locate.mp hl).1
            simp only [Bool.or_eq_true, decide_eq_true_eq]
            exact .inl (by omega)
          rw [List.modify_zero_cons, locate, locate, List.filter_append, hrest, List.filter_map]
          simp [Function.comp_def]
      | succ k =>
          have hhead : (b.map (Prod.mk i)).filter (fun l => l.1 ≠ i + (k + 1) || q l.2) =
              b.map (Prod.mk i) := by
            rw [List.filter_eq_self]
            intro l hl
            obtain ⟨y, -, rfl⟩ := List.mem_map.mp hl
            simp
          rw [List.modify_succ_cons, locate, locate, ih, List.filter_append, hhead,
            show i + (k + 1) = i + 1 + k by omega]

theorem locate_map_nil (bs : List (List HtabItem)) (i : ℕ) :
    locate i (bs.map fun _ => []) = [] := by
  induction bs generalizing i with
  | nil => rfl
  | cons b bs ih => exact ih (i + 1)

theorem locate_replicate_nil (n i : ℕ) : locate i (List.replicate n []) = [] := by
  induction n generalizing i with
  | zero => rfl
  | succ n ih => exact ih (i + 1)

/-- What is pooled is an item of a bucket. -/
theorem mem_contents {p : Mempool} {e : PoolEntry} :
    e ∈ p.contents ↔ ∃ i x, p.Stores i x ∧ x.entry = e := by
  rw [contents, Multiset.mem_coe, List.mem_map]
  constructor
  · rintro ⟨⟨i, x⟩, hl, rfl⟩
    exact ⟨i, x, mem_located.mp hl, rfl⟩
  · rintro ⟨i, x, hx, rfl⟩
    exact ⟨(i, x), mem_located.mpr hx, rfl⟩

/-! ## inserting -/

/-- The item that `insert` puts at the front of its bucket. -/
def newItem (p : Mempool) (minerId txId fee : Nat) : HtabItem where
  key := key minerId txId
  txId := txId
  fee := fee
  multimapIterator := p.nextHandle
  handle := p.nextHandle

theorem insertByFee_perm (m : MultimapItem) (l : List MultimapItem) :
    (insertByFee m l).Perm (m :: l) := by
  rw [insertByFee]
  refine List.perm_middle.trans ?_
  rw [List.takeWhile_append_dropWhile]

theorem pairwise_insertByFee (m : MultimapItem) {l : List MultimapItem}
    (h : l.Pairwise fun a b => a.fee ≤ b.fee) :
    (insertByFee m l).Pairwise fun a b => a.fee ≤ b.fee := by
  induction l with
  | nil => simp [insertByFee]
  | cons a l ih =>
      obtain ⟨hhead, htail⟩ := List.pairwise_cons.mp h
      by_cases hle : a.fee ≤ m.fee
      · have hins : insertByFee m (a :: l) = a :: insertByFee m l := by
          simp [insertByFee, hle]
        rw [hins]
        refine List.pairwise_cons.mpr ⟨fun b hb => ?_, ih htail⟩
        obtain rfl | hb := List.mem_cons.mp ((insertByFee_perm m l).mem_iff.mp hb)
        · exact hle
        · exact hhead b hb
      · have hins : insertByFee m (a :: l) = m :: a :: l := by
          simp [insertByFee, hle]
        rw [hins]
        refine List.pairwise_cons.mpr ⟨fun b hb => ?_, h⟩
        have hma : m.fee ≤ a.fee := (not_le.mp hle).le
        obtain rfl | hb := List.mem_cons.mp hb
        · exact hma
        · exact hma.trans (hhead b hb)

/-! ## how the indices hang together -/

/-- **The indices are linked**: the entries of the multimap are, in some
order, the pointers to the items of the buckets. -/
structure Linked (hashFun : String → Nat) (p : Mempool) : Prop where
  arrSize_pos : 0 < p.arrSize
  length : p.htabItems.length = p.arrSize
  /-- Each entry of the multimap points at one item, which points back. -/
  linked : p.multimapItems.Perm (p.located.map pointer)
  /-- List nodes differ, and so do multimap nodes. -/
  handles : (p.located.map fun l => l.2.handle).Nodup
  iterators : (p.located.map fun l => l.2.multimapIterator).Nodup
  fresh : ∀ l ∈ p.located, l.2.handle < p.nextHandle ∧ l.2.multimapIterator < p.nextHandle
  /-- The multimap is in the order of its keys. -/
  sorted : p.multimapItems.Pairwise fun m m' => m.fee ≤ m'.fee
  count : p.itemCount = p.located.length
  /-- Every item sits in the bucket of its key. -/
  keyed : ∀ i x, p.Stores i x →
    x.key = key x.minerId x.txId ∧ i = p.bucketOf hashFun x.minerId x.txId

variable {hashFun : String → ℕ} {p : Mempool}

/-- Buckets without an item, and an empty multimap. -/
theorem linked_of_located_eq_nil (hpos : 0 < p.arrSize) (hlen : p.htabItems.length = p.arrSize)
    (hnone : p.located = []) (hmulti : p.multimapItems = []) (hcount : p.itemCount = 0) :
    Linked hashFun p where
  arrSize_pos := hpos
  length := hlen
  linked := by
    rw [hnone, hmulti]
    exact List.Perm.nil
  handles := by
    rw [hnone]
    exact List.nodup_nil
  iterators := by
    rw [hnone]
    exact List.nodup_nil
  fresh := by
    rw [hnone]
    exact fun l hl => absurd hl List.not_mem_nil
  sorted := by
    rw [hmulti]
    exact List.Pairwise.nil
  count := by rw [hnone, hcount, List.length_nil]
  keyed := by
    intro i x hx
    rw [← mem_located, hnone] at hx
    exact absurd hx List.not_mem_nil

theorem linked_init {n : ℕ} (hn : 0 < n) : Linked hashFun (init n) :=
  linked_of_located_eq_nil hn List.length_replicate (locate_replicate_nil n 0) rfl rfl

theorem contents_init (n : ℕ) : (init n).contents = 0 := by
  rw [contents, located, init, locate_replicate_nil]
  rfl

theorem Linked.card_contents (h : Linked hashFun p) : p.contents.card = p.itemCount := by
  rw [contents, Multiset.coe_card, List.length_map, h.count]

theorem Linked.length_multimapItems (h : Linked hashFun p) :
    p.multimapItems.length = p.contents.card := by
  rw [h.linked.length_eq, List.length_map, h.card_contents, h.count]

/-- A pool that is not empty has a highest fee. -/
theorem Linked.multimapItems_ne_nil (h : Linked hashFun p) (hne : p.contents ≠ 0) :
    p.multimapItems ≠ [] := by
  rw [← List.length_pos_iff, h.length_multimapItems]
  exact Multiset.card_pos.mpr hne

namespace Linked

/-- An entry of the multimap is the pointer to an item. -/
theorem exists_pointer (h : Linked hashFun p) {m : MultimapItem} (hm : m ∈ p.multimapItems) :
    ∃ l ∈ p.located, pointer l = m :=
  List.mem_map.mp (h.linked.mem_iff.mp hm)

theorem pointer_mem (h : Linked hashFun p) {l : ℕ × HtabItem} (hl : l ∈ p.located) :
    pointer l ∈ p.multimapItems :=
  h.linked.mem_iff.mpr (List.mem_map_of_mem hl)

/-- A list iterator leads to one item. -/
theorem eq_of_handle (h : Linked hashFun p) {l l' : ℕ × HtabItem} (hl : l ∈ p.located)
    (hl' : l' ∈ p.located) (heq : l.2.handle = l'.2.handle) : l = l' :=
  List.inj_on_of_nodup_map h.handles hl hl' heq

/-- A multimap iterator is stored with one item. -/
theorem eq_of_iterator (h : Linked hashFun p) {l l' : ℕ × HtabItem} (hl : l ∈ p.located)
    (hl' : l' ∈ p.located) (heq : l.2.multimapIterator = l'.2.multimapIterator) : l = l' :=
  List.inj_on_of_nodup_map h.iterators hl hl' heq

theorem nodup (h : Linked hashFun p) : p.located.Nodup := h.handles.of_map _

theorem bucketOf_lt_length (h : Linked hashFun p) (minerId txId : ℕ) :
    p.bucketOf hashFun minerId txId < p.htabItems.length := by
  rw [h.length]
  exact Nat.mod_lt _ h.arrSize_pos

theorem located_insert (h : Linked hashFun p) (minerId txId fee : ℕ) :
    (p.insert hashFun minerId txId fee).located.Perm
      ((p.bucketOf hashFun minerId txId, newItem p minerId txId fee) :: p.located) := by
  have hperm := locate_modify_cons (i := 0) p.htabItems (h.bucketOf_lt_length minerId txId)
    (newItem p minerId txId fee)
  rwa [Nat.zero_add] at hperm

/-- Inserting keeps the indices linked. -/
protected theorem insert (h : Linked hashFun p) (minerId txId fee : ℕ) :
    Linked hashFun (p.insert hashFun minerId txId fee) := by
  have hloc := h.located_insert minerId txId fee
  have hnew : ∀ l ∈ p.located, l.2.handle ≠ p.nextHandle ∧ l.2.multimapIterator ≠ p.nextHandle :=
    fun l hl => ⟨(h.fresh l hl).1.ne, (h.fresh l hl).2.ne⟩
  have hminer : (newItem p minerId txId fee).minerId = minerId := HtabItem.minerId_eq rfl
  constructor
  case arrSize_pos => exact h.arrSize_pos
  case length => rw [insert, List.length_modify]; exact h.length
  case linked =>
    refine (insertByFee_perm _ _).trans ?_
    exact (h.linked.cons _).trans (hloc.map pointer).symm
  case handles =>
    refine (hloc.map _).nodup_iff.mpr (List.nodup_cons.mpr ⟨fun hmem => ?_, h.handles⟩)
    obtain ⟨l, hl, heq⟩ := List.mem_map.mp hmem
    exact (hnew l hl).1 heq
  case iterators =>
    refine (hloc.map _).nodup_iff.mpr (List.nodup_cons.mpr ⟨fun hmem => ?_, h.iterators⟩)
    obtain ⟨l, hl, heq⟩ := List.mem_map.mp hmem
    exact (hnew l hl).2 heq
  case fresh =>
    intro l hl
    obtain rfl | hl := List.mem_cons.mp (hloc.mem_iff.mp hl)
    · exact ⟨Nat.lt_succ_self _, Nat.lt_succ_self _⟩
    · exact ⟨(h.fresh l hl).1.trans (Nat.lt_succ_self _),
        (h.fresh l hl).2.trans (Nat.lt_succ_self _)⟩
  case sorted => exact pairwise_insertByFee _ h.sorted
  case count =>
    rw [hloc.length_eq, List.length_cons, ← h.count]
    rfl
  case keyed =>
    intro i x hx
    obtain heq | hl := List.mem_cons.mp (hloc.mem_iff.mp (mem_located.mpr hx))
    · obtain ⟨rfl, rfl⟩ := Prod.mk.inj heq
      rw [hminer]
      exact ⟨rfl, rfl⟩
    · exact h.keyed i x (mem_located.mp hl)

/-- **Inserting** adds one element. -/
theorem contents_insert (h : Linked hashFun p) (minerId txId fee : ℕ) :
    (p.insert hashFun minerId txId fee).contents = ⟨minerId, txId, fee⟩ ::ₘ p.contents := by
  have hentry : (newItem p minerId txId fee).entry = ⟨minerId, txId, fee⟩ := by
    rw [HtabItem.entry, HtabItem.minerId_eq (x := newItem p minerId txId fee) rfl]
    rfl
  rw [contents, contents, Multiset.cons_coe, ← hentry, Multiset.coe_eq_coe]
  exact (h.located_insert minerId txId fee).map _

end Linked

/-! ## taking one item out -/

/-- `p'` is `p` without the item `l`. -/
structure Drops (p : Mempool) (l : Nat × HtabItem) (p' : Mempool) : Prop where
  mem : l ∈ p.located
  located : p'.located = p.located.erase l
  multimapItems : p'.multimapItems = p.multimapItems.erase (pointer l)
  itemCount : p'.itemCount = p.itemCount - 1
  arrSize : p'.arrSize = p.arrSize
  length : p'.htabItems.length = p.htabItems.length
  nextHandle : p'.nextHandle = p.nextHandle

namespace Drops

variable {p' : Mempool} {l : ℕ × HtabItem}

/-- Taking an item out takes out exactly its element. -/
theorem contents_eq (d : Drops p l p') : p.contents = l.2.entry ::ₘ p'.contents := by
  rw [contents, contents, d.located, Multiset.cons_coe, Multiset.coe_eq_coe]
  exact (List.perm_cons_erase d.mem).map _

theorem linked (d : Drops p l p') (h : Linked hashFun p) : Linked hashFun p' := by
  have hsub : p'.located.Sublist p.located := d.located ▸ List.erase_sublist
  constructor
  case arrSize_pos => rw [d.arrSize]; exact h.arrSize_pos
  case length => rw [d.length, d.arrSize]; exact h.length
  case linked =>
    rw [d.multimapItems, d.located]
    have hperm : (p.multimapItems.erase (pointer l)).Perm
        ((pointer l :: (p.located.erase l).map pointer).erase (pointer l)) :=
      (h.linked.trans ((List.perm_cons_erase d.mem).map pointer)).erase _
    rwa [List.erase_cons_head] at hperm
  case handles => exact h.handles.sublist (hsub.map _)
  case iterators => exact h.iterators.sublist (hsub.map _)
  case fresh => rw [d.nextHandle]; exact fun l hl => h.fresh l (hsub.subset hl)
  case sorted => rw [d.multimapItems]; exact h.sorted.sublist List.erase_sublist
  case count => rw [d.itemCount, d.located, List.length_erase_of_mem d.mem, h.count]
  case keyed =>
    intro i x hx
    rw [bucketOf, d.arrSize]
    exact h.keyed i x (mem_located.mp (hsub.subset (mem_located.mpr hx)))

end Drops

namespace Linked

/-- Erasing the list node that an iterator names drops its item. -/
theorem located_erase (h : Linked hashFun p) {l : ℕ × HtabItem} (hl : l ∈ p.located) :
    locate 0 (p.htabItems.modify l.1 fun b => b.filter fun x => x.handle ≠ l.2.handle) =
      p.located.erase l := by
  rw [locate_modify_filter, ← located, h.nodup.erase_eq_filter]
  refine List.filter_congr fun l' hl' => ?_
  rw [Nat.zero_add, bne, Bool.eq_iff_iff, Bool.or_eq_true, decide_eq_true_eq, decide_eq_true_eq,
    Bool.not_eq_true', beq_eq_false_iff_ne]
  constructor
  · rintro (hne | hne) rfl
    · exact hne rfl
    · exact hne rfl
  · exact fun hne => .inr fun heq => hne (h.eq_of_handle hl' hl heq)

/-- Erasing the multimap node that an item names drops its pointer. -/
theorem multimapItems_erase (h : Linked hashFun p) {l : ℕ × HtabItem} (hl : l ∈ p.located) :
    p.multimapItems.filter (fun m => m.handle ≠ l.2.multimapIterator) =
      p.multimapItems.erase (pointer l) := by
  have hnodup : p.multimapItems.Nodup := by
    refine h.linked.nodup_iff.mpr (List.Nodup.of_map MultimapItem.handle ?_)
    rw [List.map_map]
    exact h.iterators
  rw [hnodup.erase_eq_filter]
  refine List.filter_congr fun m hm => ?_
  rw [bne, Bool.eq_iff_iff, decide_eq_true_eq, Bool.not_eq_true', beq_eq_false_iff_ne]
  refine not_congr ⟨fun heq => ?_, fun heq => heq ▸ rfl⟩
  obtain ⟨l', hl', rfl⟩ := h.exists_pointer hm
  rw [h.eq_of_iterator hl' hl heq]

/-- **Erasing** through a valid iterator takes its item out. -/
theorem drops_eraseTransaction (h : Linked hashFun p) {it : HtabIterator}
    (hit : p.Stores it.index it.item) :
    Drops p (it.index, it.item) (p.eraseTransaction it) where
  mem := mem_located.mpr hit
  located := h.located_erase (mem_located.mpr hit)
  multimapItems := h.multimapItems_erase (mem_located.mpr hit)
  itemCount := rfl
  arrSize := rfl
  length := List.length_modify ..
  nextHandle := rfl

end Linked

/-! ## the lowest fees -/

/-- `p'` is `p` without the `removed` elements, `n` of them if it has as many. -/
structure Loses (p : Mempool) (n : Nat) (p' : Mempool) (removed : Multiset PoolEntry) : Prop where
  contents_eq : p.contents = removed + p'.contents
  card_removed : removed.card = min n p.contents.card
  arrSize : p'.arrSize = p.arrSize

theorem Loses.refl {n : ℕ} (h : n = 0 ∨ p.contents = 0) : Loses p n p 0 where
  contents_eq := (zero_add _).symm
  card_removed := by rcases h with h | h <;> simp [h]
  arrSize := rfl

theorem Loses.cons {n : ℕ} {p₁ p' : Mempool} {l : ℕ × HtabItem} {removed : Multiset PoolEntry}
    (d : Drops p l p₁) (h : Loses p₁ n p' removed) :
    Loses p (n + 1) p' (l.2.entry ::ₘ removed) where
  contents_eq := by rw [d.contents_eq, h.contents_eq, Multiset.cons_add]
  card_removed := by
    rw [Multiset.card_cons, h.card_removed, d.contents_eq, Multiset.card_cons]
    omega
  arrSize := h.arrSize.trans d.arrSize

namespace Linked

/-- The first entry of the multimap has no fee below it. -/
theorem fee_le_of_cons (h : Linked hashFun p) {m : MultimapItem} {rest : List MultimapItem}
    (hm : p.multimapItems = m :: rest) {e : PoolEntry} (he : e ∈ p.contents) : m.fee ≤ e.fee := by
  obtain ⟨i, x, hx, rfl⟩ := mem_contents.mp he
  have hmem : pointer (i, x) ∈ m :: rest := hm ▸ h.pointer_mem (mem_located.mpr hx)
  obtain heq | hmem := List.mem_cons.mp hmem
  · rw [← heq]
    rfl
  · have hsorted := h.sorted
    rw [hm] at hsorted
    exact (List.pairwise_cons.mp hsorted).1 _ hmem

/-- **The lowest fees go first.** -/
theorem eraseTransactionsAscending (h : Linked hashFun p) (size : ℕ) :
    Linked hashFun (p.eraseTransactionsAscending size) ∧
      ∃ removed, Loses p size (p.eraseTransactionsAscending size) removed ∧
        ∀ r ∈ removed, ∀ e ∈ (p.eraseTransactionsAscending size).contents, r.fee ≤ e.fee := by
  induction size generalizing p with
  | zero =>
      exact ⟨h, 0, .refl (.inl rfl), fun r hr => absurd hr (Multiset.notMem_zero r)⟩
  | succ size ih =>
      rw [Mempool.eraseTransactionsAscending]
      split
      · next hnil =>
          have hnone : p.contents = 0 := by
            rw [← Multiset.card_eq_zero, ← h.length_multimapItems, hnil, List.length_nil]
          exact ⟨h, 0, .refl (.inr hnone), fun r hr => absurd hr (Multiset.notMem_zero r)⟩
      · next m rest hcons =>
          obtain ⟨l, hl, rfl⟩ := h.exists_pointer (hcons ▸ List.mem_cons_self)
          generalize hp₁ : ({ p with htabItems := _, multimapItems := _, itemCount := _ } : Mempool)
            = p₁
          have d : Drops p l p₁ := by
            rw [← hp₁]
            exact {
              mem := hl
              located := h.located_erase hl
              multimapItems := by rw [hcons, List.erase_cons_head]
              itemCount := rfl
              arrSize := rfl
              length := List.length_modify ..
              nextHandle := rfl }
          obtain ⟨hlinked, removed, hlose, hle⟩ := ih (d.linked h)
          refine ⟨hlinked, l.2.entry ::ₘ removed, hlose.cons d, fun r hr e he => ?_⟩
          obtain rfl | hr := Multiset.mem_cons.mp hr
          · refine h.fee_le_of_cons hcons ?_
            rw [d.contents_eq, hlose.contents_eq]
            exact Multiset.mem_cons_of_mem (Multiset.mem_add.mpr (.inr he))
          · exact hle r hr e he

end Linked

/-! ## probing -/

namespace Linked

theorem drops_of_pickIn (h : Linked hashFun p) {i j : ℕ} {it : HtabIterator}
    (hit : p.pickIn i j = some it) : Drops p (it.index, it.item) (p.eraseTransaction it) :=
  h.drops_eraseTransaction (stores_of_pickIn hit)

/-- A pool whose buckets are all empty. -/
theorem contents_eq_zero (h : Linked hashFun p) (hempty : ∀ k < p.arrSize, p.bucket k = []) :
    p.contents = 0 := by
  refine Multiset.eq_zero_of_forall_notMem fun e he => ?_
  obtain ⟨i, x, hx, -⟩ := mem_contents.mp he
  obtain ⟨-, hi⟩ := h.keyed i x hx
  rw [Stores, hempty i (hi ▸ Nat.mod_lt _ h.arrSize_pos)] at hx
  exact absurd hx List.not_mem_nil

/-- **A round takes one item out of a pool that has any.** -/
theorem eraseRandom_cases (h : Linked hashFun p) (hn : p.arrSize < 2 ^ 31) (draw : ℕ × ℕ) :
    (∃ l, Drops p l (p.eraseRandom draw)) ∨ p.eraseRandom draw = p ∧ p.contents = 0 := by
  rw [eraseRandom_eq]
  cases hfound : (p.eraseProbes draw.1).findSome? (p.pickIn · draw.2) with
  | some it =>
      obtain ⟨i, -, hit⟩ := List.exists_of_findSome?_eq_some hfound
      exact .inl ⟨_, h.drops_of_pickIn hit⟩
  | none =>
      refine .inr ⟨rfl, h.contents_eq_zero fun k hk => ?_⟩
      exact bucket_eq_nil_of_findSome? hfound k ((mem_eraseProbes_iff h.arrSize_pos hn _ k).mpr hk)

/-- Erasing at random takes out one item a round. -/
theorem eraseRandomTransactions (h : Linked hashFun p) (hn : p.arrSize < 2 ^ 31)
    (draw : ℕ → ℕ × ℕ) (size : ℕ) :
    Linked hashFun (p.eraseRandomTransactions draw size) ∧
      ∃ removed, Loses p (intRounds size) (p.eraseRandomTransactions draw size) removed := by
  have hgen : ∀ (l : List ℕ) (p : Mempool), Linked hashFun p → p.arrSize < 2 ^ 31 →
      Linked hashFun (l.foldl (fun p i => p.eraseRandom (draw i)) p) ∧
        ∃ removed, Loses p l.length (l.foldl (fun p i => p.eraseRandom (draw i)) p) removed := by
    intro l
    induction l with
    | nil => exact fun p h _ => ⟨h, 0, .refl (.inl rfl)⟩
    | cons i l ih =>
        intro p h hn
        obtain ⟨l₁, d⟩ | ⟨hsame, hnone⟩ := h.eraseRandom_cases hn (draw i)
        · obtain ⟨hlinked, removed, hlose⟩ := ih _ (d.linked h) (d.arrSize ▸ hn)
          exact ⟨hlinked, l₁.2.entry ::ₘ removed, hlose.cons d⟩
        · obtain ⟨hlinked, removed, hlose⟩ := ih p h hn
          rw [List.foldl_cons, hsame]
          exact ⟨hlinked, removed, hlose.contents_eq, by simp [hlose.card_removed, hnone],
            hlose.arrSize⟩
  have hrun := hgen (List.range (intRounds size)) p h hn
  rwa [List.length_range] at hrun

/-! ## clear, the highest fee, find -/

protected theorem clear (h : Linked hashFun p) : Linked hashFun p.clear :=
  linked_of_located_eq_nil h.arrSize_pos ((List.length_map _).trans h.length)
    (locate_map_nil p.htabItems 0) rfl rfl

theorem contents_clear (p : Mempool) : p.clear.contents = 0 := by
  rw [contents, located, clear, locate_map_nil]
  rfl

/-- **The last entry of the multimap leads to an item of maximal fee.** -/
theorem getSortedTransactionDescending (h : Linked hashFun p) (hne : p.contents ≠ 0) :
    ∃ it, p.getSortedTransactionDescending = some it ∧ p.Stores it.index it.item ∧
      ∀ e ∈ p.contents, e.fee ≤ it.item.fee := by
  have hmulti := h.multimapItems_ne_nil hne
  obtain ⟨l, hl, hptr⟩ := h.exists_pointer (List.getLast_mem hmulti)
  have hst : p.Stores l.1 l.2 := mem_located.mp hl
  obtain ⟨y, hy⟩ : ∃ y, (p.bucket l.1).find? (fun x => x.handle = l.2.handle) = some y := by
    rw [← Option.isSome_iff_exists, List.find?_isSome]
    exact ⟨l.2, hst, by simp⟩
  have hyl : (l.1, y) = l :=
    h.eq_of_handle (mem_located.mpr (List.mem_of_find?_eq_some hy)) hl
      (by simpa using List.find?_some hy)
  refine ⟨⟨l.2, l.1⟩, ?_, hst, fun e he => ?_⟩
  · rw [Mempool.getSortedTransactionDescending, List.getLast?_eq_some_getLast hmulti, ← hptr]
    change ((p.bucket l.1).find? fun x => x.handle = l.2.handle).bind _ = _
    rw [hy, show y = l.2 by rw [← hyl]]
    rfl
  · obtain ⟨i, x, hx, rfl⟩ := mem_contents.mp he
    have hlast := (List.getLast_mem hmulti)
    have hmem := h.pointer_mem (mem_located.mpr hx)
    have hsorted := h.sorted
    rw [← List.dropLast_append_getLast hmulti] at hmem hsorted
    rw [← hptr] at hmem hsorted
    obtain hmem | hmem := List.mem_append.mp hmem
    · exact (List.pairwise_append.mp hsorted).2.2 _ hmem _ (List.mem_singleton_self _)
    · rw [List.mem_singleton] at hmem
      exact (congrArg MultimapItem.fee hmem).le

/-- **`find` succeeds exactly on what is pooled**, under the miner that the id
is used with. -/
theorem isSome_find_iff (h : Linked hashFun p) {owner : ℕ → ℕ}
    (howner : ∀ e ∈ p.contents, e.minerId = owner e.txId) (txId : ℕ) :
    (p.find hashFun (owner txId) txId).isSome ↔ ∃ e ∈ p.contents, e.txId = txId := by
  rw [find, Option.isSome_map, List.find?_isSome]
  constructor
  · rintro ⟨x, hx, hid⟩
    exact ⟨x.entry, mem_contents.mpr ⟨_, x, hx, rfl⟩, of_decide_eq_true hid⟩
  · rintro ⟨e, he, rfl⟩
    obtain ⟨i, x, hx, rfl⟩ := mem_contents.mp he
    have hi := (h.keyed i x hx).2
    have hminer : x.minerId = owner x.txId := howner _ he
    rw [hminer] at hi
    refine ⟨x, ?_, by simp [HtabItem.entry]⟩
    change x ∈ p.bucket (p.bucketOf hashFun (owner x.txId) x.txId)
    rw [← hi]
    exact hx

end Linked

/-! ## runs of calls -/

/-- A call of the pool, with the outcomes of the generator where it draws. -/
inductive Call
  | insert (minerId txId fee : Nat)
  | find (minerId txId : Nat)
  | eraseTransaction (it : Option HtabIterator)
  | eraseTransactionsAscending (size : Nat)
  | eraseRandomTransactions (draw : Nat → Nat × Nat) (size : Nat)
  | getSortedTransactionDescending
  | clear

/-- The iterator that a call returns, and the pool after it.  No result for
an iterator that is not of this state, or for the highest fee of none. -/
def step (hashFun : String → Nat) (p : Mempool) : Call → Option (Option HtabIterator × Mempool)
  | .insert minerId txId fee =>
      let p' := p.insert hashFun minerId txId fee
      let index := p.bucketOf hashFun minerId txId
      some ((p'.bucket index).head?.map fun item => { item, index }, p')
  | .find minerId txId => some (p.find hashFun minerId txId, p)
  | .eraseTransaction none => some (none, p)
  | .eraseTransaction (some it) =>
      if it.item ∈ p.bucket it.index then some (none, p.eraseTransaction it) else none
  | .eraseTransactionsAscending size => some (none, p.eraseTransactionsAscending size)
  | .eraseRandomTransactions draw size => some (none, p.eraseRandomTransactions draw size)
  | .getSortedTransactionDescending =>
      p.getSortedTransactionDescending.map fun it => (some it, p)
  | .clear => some (none, p.clear)

/-- The pool after a run of calls. -/
def run (hashFun : String → Nat) (p : Mempool) (calls : List Call) : Option Mempool :=
  calls.foldlM (fun p c => (step hashFun p c).map Prod.snd) p

/-- What a call does to the multiset, and what its iterator points at. -/
def Acts : Call → Option HtabIterator → Multiset PoolEntry → Multiset PoolEntry → Prop
  | .insert minerId txId fee, it, M, M' =>
      M' = ⟨minerId, txId, fee⟩ ::ₘ M ∧ it.map (·.item.entry) = some ⟨minerId, txId, fee⟩
  | .find _ txId, it, M, M' =>
      M' = M ∧ ∀ found ∈ it, found.item.entry ∈ M ∧ found.item.txId = txId
  | .eraseTransaction none, _, M, M' => M' = M
  | .eraseTransaction (some it), _, M, M' => M = it.item.entry ::ₘ M'
  | .eraseTransactionsAscending size, _, M, M' =>
      ∃ removed, M = removed + M' ∧ removed.card = min size M.card ∧
        ∀ r ∈ removed, ∀ e ∈ M', r.fee ≤ e.fee
  | .eraseRandomTransactions _ size, _, M, M' =>
      ∃ removed, M = removed + M' ∧ removed.card = min (intRounds size) M.card
  | .getSortedTransactionDescending, it, M, M' =>
      M' = M ∧ ∃ top, it = some top ∧ top.item.entry ∈ M ∧ ∀ e ∈ M, e.fee ≤ top.item.fee
  | .clear, _, _, M' => M' = 0

namespace Linked

theorem head?_bucket_insert (h : Linked hashFun p) (minerId txId fee : ℕ) :
    ((p.insert hashFun minerId txId fee).bucket (p.bucketOf hashFun minerId txId)).head? =
      some (newItem p minerId txId fee) := by
  change ((p.htabItems.modify (p.bucketOf hashFun minerId txId) _).getD _ []).head? = _
  rw [getD_modify _ _ _ (h.bucketOf_lt_length minerId txId), if_pos rfl]
  rfl

/-- One call keeps the indices linked and acts on the multiset as it says. -/
theorem step (h : Linked hashFun p) (hn : p.arrSize < 2 ^ 31) {c : Call}
    {result : Option HtabIterator} {p' : Mempool}
    (hstep : Mempool.step hashFun p c = some (result, p')) :
    Linked hashFun p' ∧ p'.arrSize = p.arrSize ∧ Acts c result p.contents p'.contents := by
  cases c with
  | insert minerId txId fee =>
      obtain ⟨rfl, rfl⟩ := Prod.mk.inj (Option.some.inj hstep)
      refine ⟨h.insert _ _ _, rfl, h.contents_insert _ _ _, ?_⟩
      rw [h.head?_bucket_insert]
      exact congrArg some (congrArg (PoolEntry.mk · txId fee)
        (HtabItem.minerId_eq (x := newItem p minerId txId fee) rfl))
  | find minerId txId =>
      obtain ⟨rfl, rfl⟩ := Prod.mk.inj (Option.some.inj hstep)
      refine ⟨h, rfl, rfl, fun found hfound => ?_⟩
      obtain ⟨hst, hid⟩ := stores_of_find hfound
      exact ⟨mem_contents.mpr ⟨_, _, hst, rfl⟩, hid⟩
  | eraseTransaction it =>
      cases it with
      | none =>
          obtain ⟨rfl, rfl⟩ := Prod.mk.inj (Option.some.inj hstep)
          exact ⟨h, rfl, rfl⟩
      | some it =>
          rw [Mempool.step] at hstep
          split at hstep
          · next hit =>
              obtain ⟨rfl, rfl⟩ := Prod.mk.inj (Option.some.inj hstep)
              have d := h.drops_eraseTransaction hit
              exact ⟨d.linked h, rfl, d.contents_eq⟩
          · exact absurd hstep.symm (Option.some_ne_none _)
  | eraseTransactionsAscending size =>
      obtain ⟨rfl, rfl⟩ := Prod.mk.inj (Option.some.inj hstep)
      obtain ⟨hlinked, removed, hlose, hle⟩ := h.eraseTransactionsAscending size
      exact ⟨hlinked, hlose.arrSize, removed, hlose.contents_eq, hlose.card_removed, hle⟩
  | eraseRandomTransactions draw size =>
      obtain ⟨rfl, rfl⟩ := Prod.mk.inj (Option.some.inj hstep)
      obtain ⟨hlinked, removed, hlose⟩ := h.eraseRandomTransactions hn draw size
      exact ⟨hlinked, hlose.arrSize, removed, hlose.contents_eq, hlose.card_removed⟩
  | getSortedTransactionDescending =>
      obtain ⟨top, htop, heq⟩ := Option.map_eq_some_iff.mp hstep
      obtain ⟨rfl, rfl⟩ := Prod.mk.inj heq
      have hne : p.contents ≠ 0 := by
        intro hnone
        have hmem := mem_contents.mpr ⟨_, _, stores_of_getSortedTransactionDescending htop, rfl⟩
        exact absurd (hnone ▸ hmem) (Multiset.notMem_zero _)
      obtain ⟨top', htop', hst, hmax⟩ := h.getSortedTransactionDescending hne
      obtain rfl := Option.some.inj (htop.symm.trans htop')
      exact ⟨h, rfl, rfl, top, rfl, mem_contents.mpr ⟨_, _, hst, rfl⟩, hmax⟩
  | clear =>
      obtain ⟨rfl, rfl⟩ := Prod.mk.inj (Option.some.inj hstep)
      exact ⟨h.clear, rfl, contents_clear p⟩

/-- A run of calls keeps the indices linked. -/
theorem run (h : Linked hashFun p) (hn : p.arrSize < 2 ^ 31) {calls : List Call} {p' : Mempool}
    (hrun : Mempool.run hashFun p calls = some p') :
    Linked hashFun p' ∧ p'.arrSize = p.arrSize := by
  induction calls generalizing p with
  | nil =>
      obtain rfl := Option.some.inj hrun
      exact ⟨h, rfl⟩
  | cons c calls ih =>
      rw [Mempool.run, List.foldlM_cons] at hrun
      obtain ⟨p₁, hp₁, hrest⟩ := Option.bind_eq_some_iff.mp hrun
      obtain ⟨⟨result, p₂⟩, hstep, rfl⟩ := Option.map_eq_some_iff.mp hp₁
      obtain ⟨hlinked, harr, -⟩ := h.step hn hstep
      obtain ⟨hlinked', harr'⟩ := ih hlinked (harr ▸ hn) hrest
      exact ⟨hlinked', harr'.trans harr⟩

end Linked

/-- What one call adds to the multiset comes from an `insert`. -/
theorem mem_of_acts {c : Call} {result : Option HtabIterator} {M M' : Multiset PoolEntry}
    (h : Acts c result M M') {e : PoolEntry} (he : e ∈ M') :
    e ∈ M ∨ c = .insert e.minerId e.txId e.fee := by
  cases c with
  | insert minerId txId fee =>
      obtain rfl | he := Multiset.mem_cons.mp (h.1 ▸ he)
      · exact .inr rfl
      · exact .inl he
  | find minerId txId => exact .inl (h.1 ▸ he)
  | eraseTransaction it =>
      cases it with
      | none => exact .inl (h ▸ he)
      | some it =>
          have hM : M = it.item.entry ::ₘ M' := h
          exact .inl (hM ▸ Multiset.mem_cons_of_mem he)
  | eraseTransactionsAscending size =>
      obtain ⟨removed, hsum, -⟩ := h
      exact .inl (hsum ▸ Multiset.mem_add.mpr (.inr he))
  | eraseRandomTransactions draw size =>
      obtain ⟨removed, hsum, -⟩ := h
      exact .inl (hsum ▸ Multiset.mem_add.mpr (.inr he))
  | getSortedTransactionDescending => exact .inl (h.1 ▸ he)
  | clear =>
      have hM' : M' = 0 := h
      exact absurd (hM' ▸ he) (Multiset.notMem_zero e)

/-- What is pooled after a run was pooled before it, or inserted in it. -/
theorem mem_contents_run (h : Linked hashFun p) (hn : p.arrSize < 2 ^ 31) {calls : List Call}
    {p' : Mempool} (hrun : run hashFun p calls = some p') {e : PoolEntry}
    (he : e ∈ p'.contents) : e ∈ p.contents ∨ .insert e.minerId e.txId e.fee ∈ calls := by
  induction calls generalizing p with
  | nil =>
      obtain rfl := Option.some.inj hrun
      exact .inl he
  | cons c calls ih =>
      rw [run, List.foldlM_cons] at hrun
      obtain ⟨p₁, hp₁, hrest⟩ := Option.bind_eq_some_iff.mp hrun
      obtain ⟨⟨result, p₂⟩, hstep, rfl⟩ := Option.map_eq_some_iff.mp hp₁
      obtain ⟨hlinked, harr, hacts⟩ := h.step hn hstep
      obtain he | he := ih hlinked (harr ▸ hn) hrest
      · exact (mem_of_acts hacts he).imp_right fun heq => by rw [heq]; exact List.mem_cons_self
      · exact .inr (List.mem_cons_of_mem c he)

/-- **The two indices refine one multiset.**  After every run of calls they
are linked, every further call acts on the multiset as its name says, the
highest fee is found in every pool that is not empty, and, where ids go with
one miner each, `find` succeeds exactly on what is pooled. -/
theorem refines_run {n : ℕ} (hn : 1 ≤ n) (hn' : n < 2 ^ 31) {calls : List Call}
    (hrun : run hashFun (init n) calls = some p) :
    Linked hashFun p ∧ p.itemCount = p.contents.card ∧
      (∀ c result p', step hashFun p c = some (result, p') →
        Acts c result p.contents p'.contents) ∧
      (p.contents ≠ 0 → (step hashFun p .getSortedTransactionDescending).isSome) ∧
      ∀ owner : ℕ → ℕ, (∀ minerId txId fee, .insert minerId txId fee ∈ calls →
          minerId = owner txId) →
        ∀ txId, (p.find hashFun (owner txId) txId).isSome ↔ ∃ e ∈ p.contents, e.txId = txId := by
  have hinit : Linked hashFun (init n) := linked_init hn
  obtain ⟨h, harr⟩ := hinit.run hn' hrun
  have hlt : p.arrSize < 2 ^ 31 := harr ▸ hn'
  refine ⟨h, h.card_contents.symm, fun c result p' hstep => (h.step hlt hstep).2.2, ?_, ?_⟩
  · intro hne
    obtain ⟨it, hit, -⟩ := h.getSortedTransactionDescending hne
    rw [step, hit]
    rfl
  · intro owner howner txId
    refine h.isSome_find_iff (fun e he => ?_) txId
    obtain hinit' | hins := mem_contents_run hinit hn' hrun he
    · rw [contents_init] at hinit'
      exact absurd hinit' (Multiset.notMem_zero e)
    · exact howner _ _ _ hins

/-- Two buckets, two equal ids, the lower fee erased. -/
theorem refines_run_duplicates :
    ∃ p, run String.length (init 2)
        [.insert 1 100 50, .insert 1 100 20, .eraseTransactionsAscending 1] = some p ∧
      Linked String.length p ∧ p.itemCount = 1 ∧
      ((p.find String.length 1 100).isSome ↔ ∃ e ∈ p.contents, e.txId = 100) := by
  refine ⟨_, rfl, ?_⟩
  have hrefines := @refines_run String.length _ 2 (by decide) (by decide)
    [.insert 1 100 50, .insert 1 100 20, .eraseTransactionsAscending 1] rfl
  refine ⟨hrefines.1, rfl, hrefines.2.2.2.2 (fun _ => 1) (fun minerId txId fee hmem => ?_) 100⟩
  obtain h | h | h : _ ∨ _ ∨ _ := by simpa only [List.mem_cons, List.not_mem_nil, or_false] using hmem
  · exact (Call.insert.inj h).1
  · exact (Call.insert.inj h).1
  · exact absurd h Call.noConfusion

end Mempool

end GhostDag
