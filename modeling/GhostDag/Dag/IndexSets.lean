import GhostDag.Dag.BitSet

/-!
# GhostDag.Dag.IndexSets

`BitSet` refines finite sets of indices.

`Built s S` says that a sequence of calls has made the bit set `s`, and that
the set operations of the same names make `S`.  Then every query of `s`
answers what it asks about `S` (`agrees_of_built`), whatever the lengths of
the word vectors are.
-/

namespace GhostDag

namespace BitSet

variable {σ : Type*} {s o : BitSet} {S O : Finset ℕ}

/-- A bit set that `set`, `reset`, `|=` and `and_not` have built, and the set
of indices that it is to hold. -/
inductive Built : BitSet → Finset ℕ → Prop
  | empty : Built ∅ ∅
  | set {s : BitSet} {S : Finset ℕ} : Built s S → (i : ℕ) → Built (s.set i) (insert i S)
  | reset {s : BitSet} {S : Finset ℕ} : Built s S → (i : ℕ) → Built (s.reset i) (S.erase i)
  | or {s o : BitSet} {S O : Finset ℕ} : Built s S → Built o O → Built (s.or o) (S ∪ O)
  | andNot {s o : BitSet} {S O : Finset ℕ} : Built s S → Built o O → Built (s.andNot o) (S \ O)

/-- **Bits are members.** -/
theorem Built.test_eq (h : Built s S) (i : ℕ) : s.test i = decide (i ∈ S) := by
  induction h with
  | empty => rw [test_empty, decide_eq_false (Finset.notMem_empty i)]
  | set _ j ih =>
      rw [test_set, ih, Bool.eq_iff_iff]
      simp [Finset.mem_insert]
  | reset _ j ih =>
      rw [test_reset, ih, Bool.eq_iff_iff]
      simp [Finset.mem_erase]
  | or _ _ ihs iho =>
      rw [test_or, ihs, iho, Bool.eq_iff_iff]
      simp [Finset.mem_union]
  | andNot _ _ ihs iho =>
      rw [test_andNot, ihs, iho, Bool.eq_iff_iff]
      simp [Finset.mem_sdiff]

/-- An ascending list of the members. -/
theorem eq_sort_of_pairwise_lt {l : List ℕ} (hl : l.Pairwise (· < ·)) (hmem : ∀ i, i ∈ l ↔ i ∈ S) :
    l = S.sort (· ≤ ·) := by
  have hperm : l.Perm (S.sort (· ≤ ·)) := by
    refine (List.perm_ext_iff_of_nodup (hl.imp Nat.ne_of_lt) (S.sort_nodup (· ≤ ·))).mpr fun i => ?_
    rw [hmem, Finset.mem_sort]
  exact hperm.eq_of_pairwise' (hl.imp Nat.le_of_lt) (S.pairwise_sort (· ≤ ·))

/-- **`for_each` lists the members in ascending order.** -/
theorem Built.forEach_eq (h : Built s S) : s.forEach = S.sort (· ≤ ·) := by
  refine eq_sort_of_pairwise_lt s.pairwise_forEach fun i => ?_
  rw [mem_forEach, h.test_eq, decide_eq_true_eq]

/-! ## for_each_and_not -/

/-- What `for_each_and_not` keeps of word `wi`. -/
def clearMask (o : BitSet) (wi : Nat) : BitVec 64 :=
  match o.words[wi]? with
  | some v => ~~~v
  | none => ~~~0#64

/-- The inner loop of `for_each_and_not`, over the bits of one word: the state
of the callback, and whether it has let the loop go on. -/
def visitWord (f : σ → Nat → σ × Bool) (base : Nat) : Nat → BitVec 64 → σ → σ × Bool
  | 0, _, a => (a, true)
  | n + 1, w, a =>
      if w = 0#64 then (a, true)
      else
        let r := f a (base + w.ctz.toNat)
        if r.2 then visitWord f base n (w &&& (w - 1#64)) r.1 else r

/-- The outer loop, from word `wi` on. -/
def visitWords (o : BitSet) (f : σ → Nat → σ × Bool) : Nat → List (BitVec 64) → σ → σ × Bool
  | _, [], a => (a, true)
  | wi, w :: ws, a =>
      let r := visitWord f (wi <<< 6) 64 (w &&& o.clearMask wi) a
      if r.2 then visitWords o f (wi + 1) ws r.1 else r

/-- Calls of `f` on the indices `seen` in turn, all of which return true,
except that the last one may return false. -/
inductive Visits (f : σ → Nat → σ × Bool) : σ → List Nat → σ × Bool → Prop
  | done (a : σ) : Visits f a [] (a, true)
  | stop {a : σ} {i : Nat} : (f a i).2 = false → Visits f a [i] (f a i)
  | next {a : σ} {i : Nat} {seen : List Nat} {r : σ × Bool} : (f a i).2 = true →
      Visits f (f a i).1 seen r → Visits f a (i :: seen) r

/-- `r` is what comes of calling `f` along `l`, up to the first false. -/
def VisitsUpTo (f : σ → Nat → σ × Bool) (a : σ) (l : List Nat) (r : σ × Bool) : Prop :=
  ∃ seen, Visits f a seen r ∧ seen <+: l ∧ (r.2 = true → seen = l)

variable {f : σ → ℕ → σ × Bool}

theorem visitsUpTo_nil (a : σ) : VisitsUpTo f a [] (a, true) :=
  ⟨[], .done a, List.prefix_rfl, fun _ => rfl⟩

/-- Calling along `i :: l`. -/
theorem visitsUpTo_cons {a : σ} {i : ℕ} {l : List ℕ} {r : σ × Bool}
    (h : (f a i).2 = true → VisitsUpTo f (f a i).1 l r) :
    VisitsUpTo f a (i :: l) (if (f a i).2 then r else f a i) := by
  cases hgo : (f a i).2 with
  | true =>
      obtain ⟨seen, hseen, hpre, hall⟩ := h hgo
      exact ⟨i :: seen, .next hgo hseen, (List.cons_prefix_cons).mpr ⟨rfl, hpre⟩,
        fun hr => congrArg (i :: ·) (hall hr)⟩
  | false =>
      refine ⟨[i], .stop hgo, (List.cons_prefix_cons).mpr ⟨rfl, List.nil_prefix⟩, fun hr => ?_⟩
      exact absurd (hgo.symm.trans hr) Bool.false_ne_true

theorem Visits.append {a : σ} {seen seen' : List ℕ} {r r' : σ × Bool} (h : Visits f a seen r)
    (hgo : r.2 = true) (h' : Visits f r.1 seen' r') : Visits f a (seen ++ seen') r' := by
  induction h with
  | done a => exact h'
  | stop hstop => exact absurd (hstop.symm.trans hgo) Bool.false_ne_true
  | next hnext _ ih => exact .next hnext (ih hgo h')

/-- Calling along `l`, and along `l'` after it if nothing has returned false. -/
theorem VisitsUpTo.append {a : σ} {l l' : List ℕ} {r r' : σ × Bool} (h : VisitsUpTo f a l r)
    (h' : r.2 = true → VisitsUpTo f r.1 l' r') :
    VisitsUpTo f a (l ++ l') (if r.2 then r' else r) := by
  obtain ⟨seen, hseen, hpre, hall⟩ := h
  cases hgo : r.2 with
  | true =>
      obtain ⟨seen', hseen', hpre', hall'⟩ := h' hgo
      obtain rfl := hall hgo
      exact ⟨seen ++ seen', hseen.append hgo hseen', (List.prefix_append_right_inj seen).mpr hpre',
        fun hr => congrArg (seen ++ ·) (hall' hr)⟩
  | false =>
      refine ⟨seen, hseen, hpre.trans (List.prefix_append l l'), fun hr => ?_⟩
      exact absurd (hgo.symm.trans hr) Bool.false_ne_true

/-- One word: its members are called on, lowest first. -/
theorem visitsUpTo_visitWord (base n : ℕ) (w : BitVec 64) (a : σ) (h : (members w).length ≤ n) :
    VisitsUpTo f a ((members w).map (base + ·)) (visitWord f base n w a) := by
  induction n generalizing w a with
  | zero =>
      rw [List.eq_nil_of_length_eq_zero (Nat.le_zero.mp h), visitWord]
      exact visitsUpTo_nil a
  | succ n ih =>
      rw [visitWord]
      split
      · next hw =>
          rw [hw, show members 0#64 = [] by decide]
          exact visitsUpTo_nil a
      · next hw =>
          rw [members_cons hw] at h ⊢
          exact visitsUpTo_cons fun _ => ih _ _ (Nat.le_of_succ_le_succ h)

/-- The words from number `wi` on. -/
theorem visitsUpTo_visitWords (wi : ℕ) (ws : List (BitVec 64)) (a : σ) :
    VisitsUpTo f a (membersFrom wi (ws.mapIdx fun i w => w &&& o.clearMask (wi + i)))
      (visitWords o f wi ws a) := by
  induction ws generalizing wi a with
  | nil => exact visitsUpTo_nil a
  | cons w ws ih =>
      have hword : VisitsUpTo f a ((members (w &&& o.clearMask wi)).map (wi * 64 + ·))
          (visitWord f (wi <<< 6) 64 (w &&& o.clearMask wi) a) := by
        rw [Nat.shiftLeft_eq]
        exact visitsUpTo_visitWord _ _ _ _ ((List.length_filter_le _ _).trans_eq List.length_range)
      have hrest : ∀ b, VisitsUpTo f b (membersFrom (wi + 1)
          (ws.mapIdx fun i w => w &&& o.clearMask (wi + (i + 1)))) (visitWords o f (wi + 1) ws b) := by
        intro b
        have hrest := ih (wi + 1) b
        simp only [Nat.add_assoc, Nat.add_comm 1] at hrest
        exact hrest
      rw [List.mapIdx_cons, membersFrom, visitWords]
      exact hword.append fun _ => hrest _

/-- **`for_each_and_not`**, as the code runs it, calls along the members of the
difference. -/
theorem visitsUpTo_forEach_andNot (s o : BitSet) (a : σ) :
    VisitsUpTo f a (s.andNot o).forEach (visitWords o f 0 s.words a) := by
  have hwords := visitsUpTo_visitWords (f := f) (o := o) 0 s.words a
  simp only [Nat.zero_add] at hwords
  rw [BitSet.forEach_eq]
  exact hwords

/-! ## the refinement -/

/-- What `s` answers, alone and together with `o`, is true of `S` and `O`. -/
structure Agrees (s o : BitSet) (S O : Finset ℕ) : Prop where
  test : ∀ i, s.test i = decide (i ∈ S)
  count : s.count = S.card
  countAnd : s.countAnd o = (S ∩ O).card
  empty : s.empty = decide (S = ∅)
  andNot : ∀ i, (s.andNot o).test i = decide (i ∈ S \ O)
  forEach : s.forEach = S.sort (· ≤ ·)
  forEachAndNot : ∀ (σ : Type) (f : σ → ℕ → σ × Bool) (a : σ),
    VisitsUpTo f a ((S \ O).sort (· ≤ ·)) (visitWords o f 0 s.words a)

/-- **`BitSet` refines finite sets of indices.** -/
theorem agrees_of_built (hs : Built s S) (ho : Built o O) : Agrees s o S O where
  test := hs.test_eq
  count := by rw [count_eq, hs.forEach_eq, Finset.length_sort]
  countAnd := by
    have hfilter : s.forEach.filter o.test = (S ∩ O).sort (· ≤ ·) := by
      refine eq_sort_of_pairwise_lt (s.pairwise_forEach.filter _) fun i => ?_
      rw [List.mem_filter, mem_forEach, hs.test_eq, ho.test_eq, decide_eq_true_eq,
        decide_eq_true_eq, Finset.mem_inter]
    rw [countAnd_eq, hfilter, Finset.length_sort]
  empty := by
    rw [Bool.eq_iff_iff, empty_iff, decide_eq_true_eq, Finset.eq_empty_iff_forall_notMem]
    exact forall_congr' fun i => by rw [hs.test_eq, decide_eq_false_iff_not]
  andNot := (hs.andNot ho).test_eq
  forEach := hs.forEach_eq
  forEachAndNot σ f a := (hs.andNot ho).forEach_eq ▸ visitsUpTo_forEach_andNot s o a

/-- Two words against one. -/
theorem agrees_of_built_two_words :
    Agrees (((∅ : BitSet).set 3).set 70) ((∅ : BitSet).set 3) {70, 3} {3} :=
  agrees_of_built ((Built.empty.set 3).set 70) (Built.empty.set 3)

end BitSet

end GhostDag
