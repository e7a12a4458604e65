import Mathlib

/-!
# GhostDag.Lib.Fifo

A channel that neither loses, duplicates, alters nor reorders: what was sent
into it, and the front part of that which has come out.

`Fifo.Steps` is its behaviour.  An implementation whose every step is a
`Fifo.Steps` between what it stands for before and after is such a channel
(`Fifo.Steps.ordered`).
-/

/-- What was sent so far, and what of it has arrived. -/
@[ext] structure Fifo (M : Type*) where
  sent : List M
  arrived : List M

namespace Fifo

variable {M : Type*}

/-- A new message enters the channel, or the next one leaves it. -/
inductive Step : Fifo M → Fifo M → Prop
  | send (c : Fifo M) (m : M) : Step c { c with sent := c.sent ++ [m] }
  | arrive (c : Fifo M) (m : M) (h : c.arrived ++ [m] <+: c.sent) :
      Step c { c with arrived := c.arrived ++ [m] }

abbrev Steps : Fifo M → Fifo M → Prop := Relation.ReflTransGen Step

def empty : Fifo M := ⟨[], []⟩

/-- What has arrived is a front part of what was sent. -/
def Ordered (c : Fifo M) : Prop := c.arrived <+: c.sent

@[simp] theorem ordered_empty : (empty : Fifo M).Ordered := List.prefix_refl _

variable {c c' : Fifo M}

theorem Step.ordered (h : Step c c') (hc : c.Ordered) : c'.Ordered := by
  cases h with
  | send m => exact hc.trans (List.prefix_append _ _)
  | arrive m h => exact h

/-- **No run of the channel disturbs the order.** -/
theorem Steps.ordered (h : Steps c c') (hc : c.Ordered) : c'.Ordered := by
  induction h with
  | refl => exact hc
  | tail _ hstep ih => exact hstep.ordered ih

/-- Several messages enter the channel at once. -/
theorem Steps.send (sent arrived ms : List M) :
    Steps ⟨sent, arrived⟩ ⟨sent ++ ms, arrived⟩ := by
  induction ms generalizing sent with
  | nil => simpa using Relation.ReflTransGen.refl
  | cons m ms ih =>
      have hcons : sent ++ m :: ms = (sent ++ [m]) ++ ms := by simp
      rw [hcons]
      exact .head (.send ⟨sent, arrived⟩ m) (ih _)

/-- Several messages leave the channel at once. -/
theorem Steps.arrive {sent arrived : List M} (ms : List M) (h : arrived ++ ms <+: sent) :
    Steps ⟨sent, arrived⟩ ⟨sent, arrived ++ ms⟩ := by
  induction ms generalizing arrived with
  | nil => simpa using Relation.ReflTransGen.refl
  | cons m ms ih =>
      have hcons : arrived ++ m :: ms = (arrived ++ [m]) ++ ms := by simp
      rw [hcons] at h ⊢
      exact .head (.arrive ⟨sent, arrived⟩ m ((List.prefix_append _ _).trans h)) (ih h)

end Fifo
