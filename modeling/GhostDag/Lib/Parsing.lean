import Mathlib

/-!
# GhostDag.Lib.Parsing

Readers, which take a value off the front of a list, and what they read.

A grammar says which pieces of input stand for which values.  `Parses e n p G`
states that `p` reads exactly what `G` describes, whatever follows, from pieces
of fewer than `n` items; `e` is the error of a reader that gives up before it
has to, which it never returns on such inputs.  The rules go by the shape of
the reader.  No piece that parses continues another one (`Parses.prefix_free`).
-/

namespace Parsing

universe u

variable {ε : Type*} {σ α β : Type u}

/-- A reader returns a value, and the input behind it. -/
abbrev Reader (ε : Type*) (σ α : Type u) := List σ → Except ε (α × List σ)

/-- A grammar: the pieces of input that stand for a value. -/
abbrev Grammar (σ α : Type u) := List σ → α → Prop

/-! ## readers -/

/-- The next item. -/
def next (eof : ε) : Reader ε σ σ
  | [] => .error eof
  | c :: cs => .ok (c, cs)

/-- The next `n` items. -/
def take (eof : ε) (n : ℕ) : Reader ε σ (List σ) := fun input =>
  if n ≤ input.length then .ok (input.take n, input.drop n) else .error eof

/-- `n` values. -/
def repeated (p : Reader ε σ α) : ℕ → Reader ε σ (List α)
  | 0, input => .ok ([], input)
  | n + 1, input => do
      let (a, input) ← p input
      let (as, input) ← repeated p n input
      return (a :: as, input)

/-- At most `fuel` rounds of `untilStop`. -/
def untilWithin (eof : ε) (stop : σ → Bool) (p : σ → Reader ε σ α) :
    ℕ → Reader ε σ (List α)
  | 0, _ => .error eof
  | _ + 1, [] => .error eof
  | fuel + 1, c :: input =>
      if stop c then .ok ([], input)
      else do
        let (a, input) ← p c input
        let (as, input) ← untilWithin eof stop p fuel input
        return (a :: as, input)

/-- Values up to an item that stops the loop.  For each value `p` goes on after
an item that has been read; so there are no more rounds than items. -/
def untilStop (eof : ε) (stop : σ → Bool) (p : σ → Reader ε σ α) : Reader ε σ (List α) :=
  fun input => untilWithin eof stop p (input.length + 1) input

/-! ## grammars -/

/-- One piece after the other. -/
inductive Repeated (G : Grammar σ α) : Grammar σ (List α)
  | nil : Repeated G [] []
  | cons {u v : List σ} {a : α} {as : List α} :
      G u a → Repeated G v as → Repeated G (u ++ v) (a :: as)

/-- The pieces of a list of values, one after the other. -/
theorem Repeated.of_forall {G : Grammar σ α} {f : β → List σ} {g : β → α} {bs : List β}
    (h : ∀ b ∈ bs, G (f b) (g b)) : Repeated G (bs.flatMap f) (bs.map g) := by
  induction bs with
  | nil => exact .nil
  | cons b bs ih =>
      rw [List.flatMap_cons, List.map_cons]
      exact .cons (h b List.mem_cons_self) (ih fun b' hb' => h b' (List.mem_cons_of_mem b hb'))

/-- What holds of the values of pieces no longer than the input. -/
theorem Repeated.forall {G : Grammar σ α} {P : α → Prop} {u : List σ} {as : List α}
    (h : Repeated G u as) (hP : ∀ v a, v.length ≤ u.length → G v a → P a) : ∀ a ∈ as, P a := by
  induction h with
  | nil => exact fun a ha => absurd ha List.not_mem_nil
  | @cons u v a as hu _ ih =>
      intro b hb
      obtain rfl | hb := List.mem_cons.mp hb
      · exact hP u b (by rw [List.length_append]; omega) hu
      · exact ih (fun w c hw => hP w c (by rw [List.length_append]; omega)) b hb

/-- There are no more values than items, if no piece is empty. -/
theorem Repeated.length_le {G : Grammar σ α} {u : List σ} {as : List α} (h : Repeated G u as)
    (hG : ∀ a, ¬ G [] a) : as.length ≤ u.length := by
  induction h with
  | nil => exact Nat.le_refl 0
  | @cons u v a as hu _ ih =>
      have hpos : 0 < u.length := List.length_pos_iff.mpr fun h => hG a (h ▸ hu)
      rw [List.length_append, List.length_cons]
      omega

/-- Pieces that begin with other items, and an item that stops. -/
inductive Until (stop : σ → Bool) (G : Grammar σ α) : Grammar σ (List α)
  | stop {c : σ} : stop c = true → Until stop G [c] []
  | cons {d : σ} {v w : List σ} {a : α} {as : List α} :
      stop d = false → G (d :: v) a → Until stop G w as → Until stop G (d :: (v ++ w)) (a :: as)

/-- What holds of the values of pieces shorter than the input. -/
theorem Until.forall {stop : σ → Bool} {G : Grammar σ α} {P : α → Prop} {u : List σ}
    {as : List α} (h : Until stop G u as) (hP : ∀ v a, v.length < u.length → G v a → P a) :
    ∀ a ∈ as, P a := by
  induction h with
  | stop => exact fun a ha => absurd ha List.not_mem_nil
  | @cons d v w a as _ hv hw ih =>
      have hpos : 0 < w.length := by cases hw <;> exact Nat.succ_pos _
      simp only [List.length_cons, List.length_append] at hP
      intro b hb
      obtain rfl | hb := List.mem_cons.mp hb
      · exact hP (d :: v) b (by rw [List.length_cons]; omega) hv
      · exact ih (fun x c hx => hP x c (by omega)) b hb

/-- Values together are no larger than their pieces. -/
theorem Until.sum_lt {stop : σ → Bool} {G : Grammar σ α} {u : List σ} {as : List α}
    (h : Until stop G u as) {f : α → ℕ} (hf : ∀ v a, v.length < u.length → G v a → f a ≤ v.length) :
    (as.map f).sum < u.length := by
  induction h with
  | stop => exact Nat.one_pos
  | @cons d v w a as _ hv hw ih =>
      have hpos : 0 < w.length := by cases hw <;> exact Nat.succ_pos _
      simp only [List.length_cons, List.length_append] at hf ⊢
      have ha := hf (d :: v) a (by rw [List.length_cons]; omega) hv
      have has := ih fun x b hx => hf x b (by omega)
      rw [List.length_cons] at ha
      rw [List.map_cons, List.sum_cons]
      omega

/-- There are fewer values than items. -/
theorem Until.length_lt {stop : σ → Bool} {G : Grammar σ α} {u : List σ} {as : List α}
    (h : Until stop G u as) : as.length < u.length := by
  induction h with
  | stop => exact Nat.one_pos
  | cons _ _ _ ih =>
      simp only [List.length_cons, List.length_append]
      omega

/-! ## what a reader reads -/

/-- `p` reads exactly what `G` describes. -/
structure Parses (e : ε) (n : ℕ) (p : Reader ε σ α) (G : Grammar σ α) : Prop where
  sound : ∀ input a rest, p input = .ok (a, rest) → ∃ u, input = u ++ rest ∧ G u a
  complete : ∀ u a rest, G u a → u.length < n → p (u ++ rest) = .ok (a, rest)
  enough : ∀ input, input.length < n → p input ≠ .error e

namespace Parses

variable {e eof : ε} {n : ℕ} {p : Reader ε σ α} {G : Grammar σ α}

/-- **A grammar that a reader reads is free of prefixes**: a piece determines
its value, and no piece goes on as another one. -/
theorem prefix_free (h : Parses e n p G) {u v : List σ} {a b : α} (hu : G u a) (hv : G (u ++ v) b)
    (hn : (u ++ v).length < n) : v = [] ∧ a = b := by
  have hlen : u.length ≤ (u ++ v).length := by
    rw [List.length_append]
    exact Nat.le_add_right _ _
  have hshort := h.complete u a v hu (hlen.trans_lt hn)
  have hlong := h.complete (u ++ v) b [] hv hn
  rw [List.append_nil, hshort] at hlong
  obtain ⟨hab, hnil⟩ := Prod.mk.inj (Except.ok.inj hlong)
  exact ⟨hnil, hab⟩

/-- A reader that looks at more input reads the same there. -/
theorem mono (h : Parses e n p G) {m : ℕ} (hm : m ≤ n) : Parses e m p G where
  sound := h.sound
  complete u a rest hu hlt := h.complete u a rest hu (hlt.trans_le hm)
  enough input hlt := h.enough input (hlt.trans_le hm)

theorem congr (h : Parses e n p G) {H : Grammar σ α} (hGH : ∀ u a, G u a ↔ H u a) :
    Parses e n p H where
  sound input a rest hrun := by
    obtain ⟨u, hu, hG⟩ := h.sound input a rest hrun
    exact ⟨u, hu, (hGH u a).mp hG⟩
  complete u a rest hu := h.complete u a rest ((hGH u a).mpr hu)
  enough := h.enough

theorem ok (b : α) :
    Parses e n (fun input : List σ => .ok (b, input)) fun u a => u = [] ∧ a = b where
  sound input a rest hrun := by
    obtain ⟨rfl, rfl⟩ := Prod.mk.inj (Except.ok.inj hrun)
    exact ⟨[], rfl, rfl, rfl⟩
  complete u a rest hu _ := by
    obtain ⟨rfl, rfl⟩ := hu
    rfl
  enough _ _ h := by cases h

theorem error {e' : ε} (h : e' ≠ e) :
    Parses e n (fun _ : List σ => .error e') fun _ (_ : α) => False where
  sound _ _ _ hrun := by cases hrun
  complete _ _ _ hu := hu.elim
  enough _ _ herr := h (Except.error.inj herr)

/-- One reader after the other. -/
theorem bind (h : Parses e n p G) {f : α → Reader ε σ β} {H : α → Grammar σ β}
    (hf : ∀ a, Parses e n (f a) (H a)) :
    Parses e n (fun input => p input >>= fun r => f r.1 r.2)
      fun w b => ∃ u v a, w = u ++ v ∧ G u a ∧ H a v b where
  sound input b rest hrun := by
    cases hp : p input with
    | error e' =>
        rw [hp] at hrun
        cases hrun
    | ok r =>
        rw [hp] at hrun
        obtain ⟨u, rfl, hu⟩ := h.sound input r.1 r.2 hp
        obtain ⟨v, hv, hb⟩ := (hf r.1).sound r.2 b rest hrun
        exact ⟨u ++ v, by rw [hv, List.append_assoc], u, v, r.1, rfl, hu, hb⟩
  complete w b rest hw hlt := by
    obtain ⟨u, v, a, rfl, hu, hv⟩ := hw
    rw [List.length_append] at hlt
    rw [List.append_assoc, h.complete u a (v ++ rest) hu (by omega)]
    exact (hf a).complete v b rest hv (by omega)
  enough input hlt := by
    cases hp : p input with
    | error e' =>
        intro herr
        exact h.enough input hlt (hp.trans (congrArg _ (Except.error.inj herr)))
    | ok r =>
        obtain ⟨u, hu, -⟩ := h.sound input r.1 r.2 hp
        have hlen := congrArg List.length hu
        rw [List.length_append] at hlen
        exact (hf r.1).enough r.2 (by omega)

/-- A reader whose value is put into a form. -/
theorem map (h : Parses e n p G) (f : α → β) :
    Parses e n (fun input => p input >>= fun r => .ok (f r.1, r.2))
      fun u b => ∃ a, G u a ∧ b = f a :=
  (h.bind fun a => ok (f a)).congr fun w b => by
    constructor
    · rintro ⟨u, v, a, rfl, hu, rfl, rfl⟩
      exact ⟨a, by rwa [List.append_nil], rfl⟩
    · rintro ⟨a, hu, rfl⟩
      exact ⟨w, [], a, (List.append_nil w).symm, hu, rfl, rfl⟩

/-- Pieces that a reader goes on with after their first item. -/
theorem cons (heof : eof ≠ e) {f : σ → Reader ε σ α} (hG : ∀ a, ¬ G [] a)
    (hf : ∀ c, Parses e n (f c) fun v a => G (c :: v) a) :
    Parses e (n + 1) (fun input => next eof input >>= fun r => f r.1 r.2) G where
  sound input b rest hrun := by
    cases input with
    | nil => cases hrun
    | cons c input =>
        obtain ⟨v, hv, hb⟩ := (hf c).sound input b rest hrun
        exact ⟨c :: v, congrArg (c :: ·) hv, hb⟩
  complete w b rest hw hlt := by
    cases w with
    | nil => exact absurd hw (hG b)
    | cons c v =>
        rw [List.length_cons] at hlt
        exact (hf c).complete v b rest hw (by omega)
  enough input hlt := by
    cases input with
    | nil => exact fun herr => heof (Except.error.inj herr)
    | cons c input =>
        rw [List.length_cons] at hlt
        exact (hf c).enough input (by omega)

theorem take (heof : eof ≠ e) (k : ℕ) :
    Parses e n (take eof k) fun (u : List σ) a => u.length = k ∧ a = u where
  sound input a rest hrun := by
    unfold Parsing.take at hrun
    split at hrun
    · next hle =>
        obtain ⟨rfl, rfl⟩ := Prod.mk.inj (Except.ok.inj hrun)
        exact ⟨_, (List.take_append_drop k input).symm, List.length_take_of_le hle, rfl⟩
    · cases hrun
  complete u a rest hu _ := by
    obtain ⟨rfl, rfl⟩ := hu
    rw [Parsing.take, if_pos (by rw [List.length_append]; exact Nat.le_add_right _ _),
      List.take_left' rfl, List.drop_left' rfl]
  enough input _ := by
    unfold Parsing.take
    split
    · exact fun herr => by cases herr
    · exact fun herr => heof (Except.error.inj herr)

theorem repeated (h : Parses e n p G) (k : ℕ) :
    Parses e n (repeated p k) fun u as => Repeated G u as ∧ as.length = k := by
  induction k with
  | zero =>
      refine (ok []).congr fun u as => ?_
      constructor
      · rintro ⟨rfl, rfl⟩
        exact ⟨.nil, rfl⟩
      · rintro ⟨hu, hlen⟩
        obtain rfl := List.length_eq_zero_iff.mp hlen
        cases hu
        exact ⟨rfl, rfl⟩
  | succ k ih =>
      refine (h.bind fun a => ih.map (a :: ·)).congr fun w as => ?_
      constructor
      · rintro ⟨u, v, a, rfl, hu, as, ⟨hv, rfl⟩, rfl⟩
        exact ⟨.cons hu hv, rfl⟩
      · rintro ⟨hw, hlen⟩
        cases hw with
        | nil => cases hlen
        | @cons u v a as hu hv => exact ⟨u, v, a, rfl, hu, as, ⟨hv, Nat.succ.inj hlen⟩, rfl⟩

theorem untilWithin (heof : eof ≠ e) {stop : σ → Bool} {p : σ → Reader ε σ α}
    (h : ∀ c, Parses e n (p c) fun v a => G (c :: v) a) (fuel : ℕ) :
    Parses e (min (n + 1) fuel) (untilWithin eof stop p fuel) (Until stop G) := by
  induction fuel with
  | zero =>
      refine ⟨fun _ _ _ hrun => (by cases hrun), fun _ _ _ _ hlt => ?_, fun input hlt => ?_⟩
      · exact absurd hlt (Nat.not_lt_zero _)
      · exact absurd hlt (Nat.not_lt_zero _)
  | succ fuel ih =>
      -- a round, after its first item
      have hround := fun c => ((h c).mono (Nat.min_le_left n fuel)).bind fun a =>
        (ih.mono (min_le_min_right fuel (Nat.le_succ n))).map (a :: ·)
      have hmin : min (n + 1) (fuel + 1) = min n fuel + 1 := Nat.succ_min_succ n fuel
      rw [hmin]
      constructor
      case sound =>
        intro input as rest hrun
        cases input with
        | nil => cases hrun
        | cons c input =>
            rw [Parsing.untilWithin] at hrun
            split at hrun
            · next hstop =>
                obtain ⟨rfl, rfl⟩ := Prod.mk.inj (Except.ok.inj hrun)
                exact ⟨[c], rfl, .stop hstop⟩
            · next hgo =>
                obtain ⟨u, hu, v, w, a, rfl, ha, as, hw, rfl⟩ :=
                  (hround c).sound input as rest hrun
                exact ⟨c :: (v ++ w), congrArg (c :: ·) hu,
                  .cons (Bool.eq_false_iff.mpr hgo) ha hw⟩
      case complete =>
        intro u as rest hu hlt
        cases hu with
        | @stop c hc =>
            rw [List.singleton_append, Parsing.untilWithin, if_pos hc]
        | @cons d v w a as hd ha hw =>
            rw [List.length_cons] at hlt
            rw [List.cons_append, Parsing.untilWithin, if_neg (Bool.eq_false_iff.mp hd)]
            exact (hround d).complete (v ++ w) (a :: as) rest ⟨v, w, a, rfl, ha, as, hw, rfl⟩
              (by omega)
      case enough =>
        intro input hlt
        cases input with
        | nil => exact fun herr => heof (Except.error.inj herr)
        | cons c input =>
            rw [List.length_cons] at hlt
            rw [Parsing.untilWithin]
            split
            · exact fun herr => by cases herr
            · exact (hround c).enough input (by omega)

/-- A loop up to an item that stops it. -/
theorem untilStop (heof : eof ≠ e) {stop : σ → Bool} {p : σ → Reader ε σ α}
    (h : ∀ c, Parses e n (p c) fun v a => G (c :: v) a) :
    Parses e (n + 1) (untilStop eof stop p) (Until stop G) where
  sound input := (untilWithin heof h (input.length + 1)).sound input
  complete u a rest hu hlt :=
    (untilWithin heof h ((u ++ rest).length + 1)).complete u a rest hu
      (lt_min hlt (by rw [List.length_append]; omega))
  enough input hlt :=
    (untilWithin heof h (input.length + 1)).enough input (lt_min hlt (Nat.lt_succ_self _))

end Parses

end Parsing
