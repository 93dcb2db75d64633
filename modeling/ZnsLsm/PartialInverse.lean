import Mathlib.Logic.Function.Basic

/-!
# Partial maps that are inverse to each other

A table and its reverse table, as two partial functions.  Entering a fresh pair,
removing a pair and moving a key to a fresh place keep them inverse.
-/

namespace ZnsLsm.PartialInverse

universe u v

variable {α : Type u} {β : Type v}

/-- Each map undoes the other where it is defined. -/
def Inverse (f : α → Option β) (g : β → Option α) : Prop :=
  ∀ a b, f a = some b ↔ g b = some a

variable {f : α → Option β} {g : β → Option α} {a a' : α} {b b' : β}

theorem Inverse.injective (inverse : Inverse f g) (at_a : f a = some b) (at_a' : f a' = some b) :
    a = a' := by
  have back := (inverse a b).mp at_a
  rw [(inverse a' b).mp at_a'] at back
  exact (Option.some.inj back).symm

theorem Inverse.eq_none_iff (inverse : Inverse f g) : g b = none ↔ ∀ a, f a ≠ some b := by
  constructor
  · intro none a at_a
    rw [(inverse a b).mp at_a] at none
    cases none
  · intro never
    cases at_b : g b with
    | none => rfl
    | some a => exact absurd ((inverse a b).mpr at_b) (never a)

section Updates

variable [DecidableEq α] [DecidableEq β]

theorem Inverse.enter (inverse : Inverse f g) (free_a : f a = none) (free_b : g b = none) :
    Inverse (Function.update f a (some b)) (Function.update g b (some a)) := by
  intro x y
  by_cases xa : x = a
  · subst xa
    rw [Function.update_self]
    by_cases yb : y = b
    · subst yb
      simp
    · rw [Function.update_of_ne yb]
      refine iff_of_false (fun eq => yb (Option.some.inj eq).symm) fun eq => ?_
      rw [(inverse x y).mpr eq] at free_a
      cases free_a
  · rw [Function.update_of_ne xa]
    by_cases yb : y = b
    · subst yb
      rw [Function.update_self]
      refine iff_of_false (fun eq => ?_) fun eq => xa (Option.some.inj eq).symm
      rw [(inverse x y).mp eq] at free_b
      cases free_b
    · rw [Function.update_of_ne yb]
      exact inverse x y

theorem Inverse.remove (inverse : Inverse f g) (at_a : f a = some b) :
    Inverse (Function.update f a none) (Function.update g b none) := by
  intro x y
  by_cases xa : x = a
  · subst xa
    rw [Function.update_self]
    refine iff_of_false (by simp) fun eq => ?_
    by_cases yb : y = b
    · subst yb
      simp at eq
    · rw [Function.update_of_ne yb, ← inverse, at_a] at eq
      exact yb (Option.some.inj eq).symm
  · rw [Function.update_of_ne xa]
    by_cases yb : y = b
    · subst yb
      rw [Function.update_self]
      exact iff_of_false (fun eq => xa (inverse.injective eq at_a)) (by simp)
    · rw [Function.update_of_ne yb]
      exact inverse x y

end Updates

end ZnsLsm.PartialInverse
