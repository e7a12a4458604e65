import Mathlib

/-!
# GhostDag.Lib.Loops

Loops that may fail, in `Except`.
-/

namespace Loops

universe u v

variable {σ : Type u} {ε : Type v} {α : Type*}

/-- What every round keeps, the loop keeps. -/
theorem foldlM_invariant {f : σ → α → Except ε σ} {P : σ → Prop}
    (hf : ∀ s a s', P s → f s a = .ok s' → P s') (l : List α) {s s' : σ} (hs : P s)
    (h : l.foldlM f s = .ok s') : P s' := by
  induction l generalizing s with
  | nil =>
      cases h
      exact hs
  | cons a l ih =>
      rw [List.foldlM_cons] at h
      cases hstep : f s a with
      | error e =>
          rw [hstep] at h
          cases h
      | ok t =>
          rw [hstep] at h
          exact ih (hf s a t hs hstep) h

/-- A loop stays at a state that no round changes. -/
theorem foldlM_fixed {f : σ → α → Except ε σ} {s : σ} (h : ∀ a, f s a = .ok s) (l : List α) :
    l.foldlM f s = .ok s := by
  induction l with
  | nil => rfl
  | cons a l ih =>
      rw [List.foldlM_cons, h a]
      exact ih

/-- What a computation that binds has returned. -/
theorem bind_eq_ok {β γ : Type u} {x : Except ε β} {f : β → Except ε γ} {c : γ}
    (h : (x >>= f) = .ok c) : ∃ b, x = .ok b ∧ f b = .ok c := by
  cases x with
  | error e => cases h
  | ok b => exact ⟨b, rfl, h⟩

theorem toOption_eq_some {β : Type u} {x : Except ε β} {b : β} :
    x.toOption = some b ↔ x = .ok b := by
  cases x with
  | error e => exact ⟨nofun, nofun⟩
  | ok b' => exact ⟨fun h => congrArg Except.ok (Option.some.inj h), fun h => by rw [h]; rfl⟩

/-! ## computations that fail for some reasons only -/

section Meets

variable {β γ : Type u} {E : ε → Prop} {P Q : β → Prop} {x : Except ε β}

/-- What is returned has the property, and a failure is one of those allowed. -/
structure Meets (E : ε → Prop) (P : β → Prop) (x : Except ε β) : Prop where
  ok : ∀ b, x = .ok b → P b
  error : ∀ e, x = .error e → E e

theorem Meets.of_ok {b : β} (h : P b) : Meets E P (.ok b : Except ε β) :=
  ⟨fun b' heq => by cases heq; exact h, fun e heq => by cases heq⟩

theorem Meets.of_error {e : ε} (h : E e) : Meets E P (.error e : Except ε β) :=
  ⟨fun b heq => (by cases heq), fun e' heq => by cases heq; exact h⟩

theorem Meets.mono (h : Meets E P x) (hPQ : ∀ b, P b → Q b) : Meets E Q x :=
  ⟨fun b hb => hPQ b (h.ok b hb), h.error⟩

theorem Meets.bind {Q : γ → Prop} {f : β → Except ε γ} (h : Meets E P x)
    (hf : ∀ b, P b → Meets E Q (f b)) : Meets E Q (x >>= f) := by
  cases x with
  | error e => exact .of_error (h.error e rfl)
  | ok b => exact hf b (h.ok b rfl)

/-- What every round keeps, the loop keeps. -/
theorem Meets.foldlM {f : σ → α → Except ε σ} {P : σ → Prop} {l : List α}
    (hf : ∀ a ∈ l, ∀ s, P s → Meets E P (f s a)) {s : σ} (hs : P s) :
    Meets E P (l.foldlM f s) := by
  induction l generalizing s with
  | nil => exact .of_ok hs
  | cons a l ih =>
      rw [List.foldlM_cons]
      exact (hf a List.mem_cons_self s hs).bind fun s' hs' =>
        ih (fun b hb => hf b (List.mem_cons_of_mem a hb)) hs'

end Meets

end Loops
