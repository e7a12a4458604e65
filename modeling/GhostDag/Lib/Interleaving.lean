import Mathlib

/-!
# GhostDag.Lib.Interleaving

Several sequences in one list, told apart by labels.

A log of positions is in order (`InOrder`) if it goes through each sequence
from its beginning, one element after the other, whatever comes first between
the sequences.  Such a log has no position twice, and it has all of them when
it is through with every sequence.
-/

namespace Interleaving

variable {α κ : Type*} [DecidableEq κ] (label : α → κ)

/-- The elements with a label. -/
def sequence (l : List α) (k : κ) : List α := l.filter fun a => label a = k

/-- The place of a position in the sequence of a label. -/
def place (l : List α) (k : κ) (index : ℕ) : ℕ := (sequence label (l.take index) k).length

/-- The places that a log visits in the sequence of a label. -/
def places (l : List α) (log : List ℕ) (k : κ) : List ℕ :=
  (log.filter fun index => l[index]?.map label = some k).map (place label l k)

/-- The log has been through the first `count k` elements of every sequence,
in order. -/
structure InOrder (l : List α) (log : List ℕ) (count : κ → ℕ) : Prop where
  valid : ∀ index ∈ log, index < l.length
  places : ∀ k, places label l log k = List.range (count k)

variable {label} {l l' : List α} {log : List ℕ} {count : κ → ℕ} {k : κ}

theorem sequence_append (l l' : List α) (k : κ) :
    sequence label (l ++ l') k = sequence label l k ++ sequence label l' k :=
  List.filter_append ..

/-- The element at a position, in its sequence. -/
theorem getElem?_sequence {index : ℕ} {a : α} (ha : l[index]? = some a) :
    (sequence label l (label a))[place label l (label a) index]? = some a := by
  have hsplit : l = l.take index ++ a :: l.drop (index + 1) := by
    obtain ⟨hlt, rfl⟩ := List.getElem?_eq_some_iff.mp ha
    simp
  have hseq : sequence label l (label a) =
      sequence label (l.take index) (label a) ++ a :: sequence label (l.drop (index + 1)) (label a) := by
    conv_lhs => rw [hsplit]
    rw [sequence_append]
    simp [sequence]
  rw [hseq, place, List.getElem?_append_right (Nat.le_refl _), Nat.sub_self]
  rfl

/-- An element of a sequence, in the list. -/
theorem exists_getElem? {n : ℕ} {a : α} (ha : (sequence label l k)[n]? = some a) :
    ∃ index, l[index]? = some a ∧ label a = k ∧ place label l k index = n := by
  induction l generalizing n with
  | nil => exact absurd ha.symm (Option.some_ne_none a)
  | cons b l ih =>
      by_cases hb : label b = k
      · rw [sequence, List.filter_cons_of_pos (by simpa using hb)] at ha
        cases n with
        | zero =>
            obtain rfl := Option.some.inj ha
            exact ⟨0, rfl, hb, rfl⟩
        | succ n =>
            obtain ⟨index, hindex, hk, hplace⟩ := ih ha
            refine ⟨index + 1, hindex, hk, ?_⟩
            rw [place, sequence, List.take_succ_cons, List.filter_cons_of_pos (by simpa using hb),
              List.length_cons]
            exact congrArg Nat.succ hplace
      · rw [sequence, List.filter_cons_of_neg (by simpa using hb)] at ha
        obtain ⟨index, hindex, hk, hplace⟩ := ih ha
        refine ⟨index + 1, hindex, hk, ?_⟩
        rw [place, sequence, List.take_succ_cons, List.filter_cons_of_neg (by simpa using hb)]
        exact hplace

/-- Two elements of one sequence have places in the order of their positions. -/
theorem place_lt {index index' : ℕ} {a : α} (ha : l[index]? = some a) (hlt : index < index') :
    place label l (label a) index < place label l (label a) index' := by
  have hfront : l.take (index + 1) <+: l.take index' := List.take_prefix_take_left (by omega)
  have hle : place label l (label a) (index + 1) ≤ place label l (label a) index' :=
    (hfront.filter _).length_le
  have hone : place label l (label a) (index + 1) = place label l (label a) index + 1 := by
    rw [place, List.take_add_one, ha, sequence_append]
    simp [sequence, place]
  omega

theorem eq_of_place_eq {index index' : ℕ} {a a' : α} (ha : l[index]? = some a)
    (ha' : l[index']? = some a') (hk : label a = label a')
    (hplace : place label l (label a) index = place label l (label a) index') : index = index' := by
  obtain hlt | heq | hlt := lt_trichotomy index index'
  · exact absurd hplace (place_lt ha hlt).ne
  · exact heq
  · rw [hk] at hplace
    exact absurd hplace.symm (place_lt ha' hlt).ne

namespace InOrder

theorem nil (l : List α) : InOrder label l [] fun _ => 0 where
  valid _ h := absurd h List.not_mem_nil
  places _ := rfl

/-- The list grows. -/
theorem append (h : InOrder label l log count) (l' : List α) : InOrder label (l ++ l') log count where
  valid index hindex := (h.valid index hindex).trans_le (by simp)
  places k := by
    rw [← h.places k, Interleaving.places, Interleaving.places]
    have hsame : ∀ index ∈ log, (l ++ l')[index]? = l[index]? := fun index hindex =>
      List.getElem?_append_left (h.valid index hindex)
    rw [List.filter_congr fun index hindex => by rw [hsame index hindex]]
    refine List.map_congr_left fun index hindex => ?_
    rw [place, place,
      List.take_append_of_le_length (h.valid index (List.mem_filter.mp hindex).1).le]

/-- The next element of a sequence is visited. -/
theorem visit (h : InOrder label l log count) {a : α}
    (ha : (sequence label l k)[count k]? = some a) :
    ∃ index, l[index]? = some a ∧
      InOrder label l (log ++ [index]) (Function.update count k (count k + 1)) := by
  obtain ⟨index, hindex, rfl, hplace⟩ := exists_getElem? ha
  refine ⟨index, hindex, fun i hi => ?_, fun k' => ?_⟩
  · obtain hi | hi := List.mem_append.mp hi
    · exact h.valid i hi
    · rw [List.mem_singleton.mp hi]
      exact (List.getElem?_eq_some_iff.mp hindex).1
  · rw [Interleaving.places, List.filter_append, List.map_append, ← Interleaving.places, h.places]
    by_cases hk : k' = label a
    · subst hk
      rw [Function.update_self, List.range_succ, List.filter_cons_of_pos (by simp [hindex])]
      exact congrArg (fun n => List.range (count (label a)) ++ [n]) hplace
    · rw [Function.update_of_ne hk, List.filter_cons_of_neg (by simpa [hindex] using Ne.symm hk)]
      exact List.append_nil _

/-- **A log that is through with a sequence has every position of it.** -/
theorem mem_of_complete (h : InOrder label l log count) {index : ℕ} {a : α}
    (ha : l[index]? = some a) (hall : (sequence label l (label a)).length ≤ count (label a)) :
    index ∈ log := by
  have hplace : place label l (label a) index < count (label a) :=
    (List.getElem?_eq_some_iff.mp (getElem?_sequence ha)).1.trans_le hall
  have hmem := List.mem_range.mpr hplace
  rw [← h.places] at hmem
  obtain ⟨index', hindex', heq⟩ := List.mem_map.mp hmem
  obtain ⟨hlog, hlabel⟩ := List.mem_filter.mp hindex'
  obtain ⟨a', ha', hk⟩ := Option.map_eq_some_iff.mp (of_decide_eq_true hlabel)
  rw [eq_of_place_eq ha ha' hk.symm heq.symm]
  exact hlog

end InOrder

end Interleaving
