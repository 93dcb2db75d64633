import Mathlib.Data.Set.Basic
import Mathlib.Logic.Function.Basic

/-!
# Nodes that pointers lead to

A memory holds nodes at addresses; a node holds the addresses of others.  What a program
with one root pointer can still use, and so can still free, is what pointers lead to from
there.  Here are the rules by which no node gets out of reach when one is changed, linked in
or put on top, whatever a node is.
-/

namespace ZnsLsm.PointerGraph

universe u v

variable {α : Type u} {ν : Type v}

section

variable (targets : ν → Set α)

/-- The addresses to which pointers lead from the root. -/
inductive Reach (heap : α → Option ν) (root : Option α) : α → Prop
  | root {a : α} : root = some a → Reach heap root a
  | follow {a b : α} {node : ν} :
      Reach heap root a → heap a = some node → b ∈ targets node → Reach heap root b

/-- No node is out of reach. -/
def Tight (heap : α → Option ν) (root : Option α) : Prop :=
  ∀ a node, heap a = some node → Reach targets heap root a

end

variable {targets : ν → Set α} {heap heap' : α → Option ν} {root root' : Option α}

/-- A set that holds the root and is closed under pointers holds what they lead to. -/
theorem Reach.mem {s : Set α} (start : ∀ a, root = some a → a ∈ s)
    (closed : ∀ a ∈ s, ∀ node, heap a = some node → targets node ⊆ s) {a : α}
    (reach : Reach targets heap root a) : a ∈ s := by
  induction reach with
  | root isRoot => exact start _ isRoot
  | follow _ here target ih => exact closed _ ih _ here target

/-- In a memory whose pointers can be followed in another one, nothing more is reached. -/
theorem Reach.transfer (start : ∀ a, root = some a → Reach targets heap' root' a)
    (edges : ∀ a node, heap a = some node → Reach targets heap' root' a →
      ∀ b ∈ targets node, Reach targets heap' root' b) {a : α}
    (reach : Reach targets heap root a) : Reach targets heap' root' a :=
  reach.mem (s := {a | Reach targets heap' root' a}) start
    fun a reached node here => edges a node here reached

/-- So no node gets out of reach if the new ones are in reach. -/
theorem Tight.transfer (tight : Tight targets heap root)
    (start : ∀ a, root = some a → Reach targets heap' root' a)
    (edges : ∀ a node, heap a = some node → Reach targets heap' root' a →
      ∀ b ∈ targets node, Reach targets heap' root' b)
    (new : ∀ a node, heap' a = some node → heap a = none → Reach targets heap' root' a) :
    Tight targets heap' root' := by
  intro a node live
  cases before : heap a with
  | none => exact new a node live before
  | some old => exact Reach.transfer start edges (tight a old before)

theorem tight_empty {root : Option α} : Tight targets (fun _ => none) root :=
  fun _ _ here => absurd here (Option.some_ne_none _).symm

/-- Without a root, there are no nodes. -/
theorem Tight.eq_none (tight : Tight targets heap none) (a : α) : heap a = none := by
  by_contra live
  obtain ⟨node, here⟩ := Option.ne_none_iff_exists'.mp live
  refine Reach.mem (s := ∅) ?_ ?_ (tight a node here)
  · exact fun _ isRoot => absurd isRoot.symm (Option.some_ne_none _)
  · exact fun _ mem => absurd mem (Set.notMem_empty _)

theorem ne_of_live {a b : α} {node : ν} (live : heap a = some node) (blank : heap b = none) :
    a ≠ b := by
  rintro rfl
  exact absurd (live.symm.trans blank) (Option.some_ne_none _)

variable [DecidableEq α]

/-- A node may change as long as its pointers stay. -/
theorem Tight.modify (tight : Tight targets heap root) {a : α} {node node' : ν}
    (here : heap a = some node) (same : targets node' = targets node) :
    Tight targets (Function.update heap a (some node')) root := by
  refine tight.transfer (fun _ => .root) ?_ ?_
  · intro b old live reached c target
    by_cases equal : b = a
    · cases equal
      cases here.symm.trans live
      exact reached.follow (Function.update_self ..) (same ▸ target)
    · exact reached.follow ((Function.update_of_ne equal ..).trans live) target
  · intro b other live blank
    rw [Function.update_of_ne (ne_of_live here blank).symm, blank] at live
    cases live

/-- A new node is linked in behind another one, whose old targets it takes over. -/
theorem Tight.splice (tight : Tight targets heap root) {a new : α} {node inserted node' : ν}
    (here : heap a = some node) (fresh : heap new = none) (linked : new ∈ targets node')
    (passed : targets node ⊆ targets node' ∪ targets inserted) :
    Tight targets
      (Function.update (Function.update heap new (some inserted)) a (some node')) root := by
  have link : (Function.update (Function.update heap new (some inserted)) a (some node')) new =
      some inserted :=
    (Function.update_of_ne (ne_of_live here fresh).symm ..).trans (Function.update_self ..)
  have edges : ∀ b old, heap b = some old → Reach targets
      (Function.update (Function.update heap new (some inserted)) a (some node')) root b →
        ∀ c ∈ targets old, Reach targets
          (Function.update (Function.update heap new (some inserted)) a (some node')) root c := by
    intro b old live reached c target
    by_cases equal : b = a
    · cases equal
      cases here.symm.trans live
      rcases passed target with direct | behind
      · exact reached.follow (Function.update_self ..) direct
      · exact (reached.follow (Function.update_self ..) linked).follow link behind
    · refine reached.follow ?_ target
      rw [Function.update_of_ne equal, Function.update_of_ne (ne_of_live live fresh), live]
  have first := Reach.transfer (fun _ => .root) edges (tight a node here)
  refine tight.transfer (fun _ => .root) edges ?_
  intro b other live blank
  rw [Function.update_of_ne (ne_of_live here blank).symm] at live
  by_cases isNew : b = new
  · exact isNew ▸ first.follow (Function.update_self ..) linked
  · rw [Function.update_of_ne isNew, blank] at live
    cases live

/-- Where there was no node, one may be put without a pointer in the others changing. -/
theorem follow_update {new b c : α} {node old : ν} (fresh : heap new = none)
    (live : heap b = some old)
    (reached : Reach targets (Function.update heap new (some node)) root b)
    (target : c ∈ targets old) :
    Reach targets (Function.update heap new (some node)) root c :=
  reached.follow ((Function.update_of_ne (ne_of_live live fresh) ..).trans live) target

/-- A node is put where a pointer leads already. -/
theorem Tight.fill (tight : Tight targets heap root) {new : α} (fresh : heap new = none)
    (reached : Reach targets heap root new) (node : ν) :
    Tight targets (Function.update heap new (some node)) root := by
  refine tight.transfer (fun _ => .root)
    (fun _ _ live reached _ target => follow_update fresh live reached target) ?_
  intro b other live blank
  by_cases equal : b = new
  · cases equal
    exact reached.transfer (fun _ => .root)
      fun _ _ live reached _ target => follow_update fresh live reached target
  · rw [Function.update_of_ne equal, blank] at live
    cases live

/-- A new node becomes the root and leads to the old one. -/
theorem Tight.push (tight : Tight targets heap root) {top : α} {node : ν}
    (fresh : heap top = none) (linked : ∀ a, root = some a → a ∈ targets node) :
    Tight targets (Function.update heap top (some node)) (some top) := by
  have first : Reach targets (Function.update heap top (some node)) (some top) top := .root rfl
  refine tight.transfer ?_
    (fun _ _ live reached _ target => follow_update fresh live reached target) ?_
  · exact fun a isRoot => first.follow (Function.update_self ..) (linked a isRoot)
  · intro b other live blank
    by_cases equal : b = top
    · exact equal ▸ first
    · rw [Function.update_of_ne equal, blank] at live
      cases live

end ZnsLsm.PointerGraph
