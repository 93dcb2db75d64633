/-!
# Outcomes of fallible computations

A computation in `Except` ends in a value or in a failure.  `Ends post stop` says what
holds in either case; the rules follow the way the computation is put together.
-/

namespace ZnsLsm.Outcome

universe u v

variable {ε : Type u} {α β : Type v}

/-- The computation ends in a value with `post` or in a failure with `stop`. -/
def Ends (post : α → Prop) (stop : ε → Prop) : Except ε α → Prop
  | .ok value => post value
  | .error failure => stop failure

@[simp]
theorem ends_ok {post : α → Prop} {stop : ε → Prop} {value : α} :
    Ends post stop (.ok value) ↔ post value :=
  Iff.rfl

@[simp]
theorem ends_error {post : α → Prop} {stop : ε → Prop} {failure : ε} :
    Ends post stop (.error failure : Except ε α) ↔ stop failure :=
  Iff.rfl

@[simp]
theorem ends_pure {post : α → Prop} {stop : ε → Prop} {value : α} :
    Ends post stop (pure value : Except ε α) ↔ post value :=
  Iff.rfl

@[simp]
theorem ends_throw {post : α → Prop} {stop : ε → Prop} {failure : ε} :
    Ends post stop (throw failure : Except ε α) ↔ stop failure :=
  Iff.rfl

/-- Sequential composition. -/
theorem Ends.bind {mid : α → Prop} {post : β → Prop} {stop : ε → Prop}
    {first : Except ε α} {next : α → Except ε β} (firstEnds : Ends mid stop first)
    (nextEnds : ∀ value, first = .ok value → mid value → Ends post stop (next value)) :
    Ends post stop (first >>= next) := by
  cases first with
  | error failure => exact firstEnds
  | ok value => exact nextEnds value rfl firstEnds

/-- Weakening. -/
theorem Ends.imp {post post' : α → Prop} {stop stop' : ε → Prop} {comp : Except ε α}
    (ends : Ends post stop comp) (values : ∀ value, post value → post' value)
    (failures : ∀ failure, stop failure → stop' failure) : Ends post' stop' comp := by
  cases comp with
  | error failure => exact failures failure ends
  | ok value => exact values value ends

theorem Ends.and {post post' : α → Prop} {stop stop' : ε → Prop} {comp : Except ε α}
    (ends : Ends post stop comp) (ends' : Ends post' stop' comp) :
    Ends (fun value => post value ∧ post' value)
      (fun failure => stop failure ∧ stop' failure) comp := by
  cases comp with
  | error failure => exact ⟨ends, ends'⟩
  | ok value => exact ⟨ends, ends'⟩

theorem Ends.of_ok {post : α → Prop} {stop : ε → Prop} {comp : Except ε α} {value : α}
    (ends : Ends post stop comp) (ok : comp = .ok value) : post value := by
  rw [ok] at ends
  exact ends

theorem Ends.of_error {post : α → Prop} {stop : ε → Prop} {comp : Except ε α} {failure : ε}
    (ends : Ends post stop comp) (error : comp = .error failure) : stop failure := by
  rw [error] at ends
  exact ends

/-- A computation that cannot fail returns. -/
theorem Ends.returns {post : α → Prop} {comp : Except ε α}
    (ends : Ends post (fun _ => False) comp) : ∃ value, comp = .ok value ∧ post value := by
  cases comp with
  | error failure => exact ends.elim
  | ok value => exact ⟨value, rfl, ends⟩

/-! ## Computations that were evaluated -/

theorem eq_ok_of_toOption {comp : Except ε α} {value : α}
    (returned : comp.toOption = some value) : comp = .ok value := by
  cases comp with
  | error failure => cases returned
  | ok result =>
      cases returned
      rfl

theorem exists_ok_of_isSome {comp : Except ε α} (returns : comp.toOption.isSome) :
    ∃ value, comp = .ok value := by
  obtain ⟨value, returned⟩ := Option.isSome_iff_exists.mp returns
  exact ⟨value, eq_ok_of_toOption returned⟩

end ZnsLsm.Outcome
