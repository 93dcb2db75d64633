import Mathlib.Algebra.GroupWithZero.Nat
import Mathlib.Algebra.Order.BigOperators.Group.List
import Mathlib.Algebra.Order.Group.Nat
import Mathlib.Order.Basic
import Mathlib.Data.List.Pairwise

/-!
# Sets ordered by a key

A set that is ordered by a key holds at most one item for each key: inserting an
item whose key is present changes nothing.  The set is the list of its items in
ascending order of the keys.
-/

namespace ZnsLsm.KeyedSet

universe u v

variable {α : Type u} {κ : Type v} [LinearOrder κ] (key : α → κ)

/-- The items stand in strictly ascending order of their keys. -/
def Sorted (items : List α) : Prop :=
  items.Pairwise fun first second => key first < key second

/-- Insert an item unless one with its key is present. -/
def emplace (item : α) : List α → List α
  | [] => [item]
  | first :: rest =>
      if key item < key first then item :: first :: rest
      else if key first < key item then first :: emplace item rest
      else first :: rest

/-- Remove the item with the key of `item`. -/
def erase (item : α) (items : List α) : List α :=
  items.filter fun other => key other ≠ key item

/-- Insert items one after the other. -/
def emplaceAll (new items : List α) : List α :=
  new.foldl (fun items item => emplace key item items) items

/-- Remove items one after the other. -/
def eraseAll (old items : List α) : List α :=
  old.foldl (fun items item => erase key item items) items

/-- No item has the key of `item`. -/
def Fresh (item : α) (items : List α) : Prop :=
  ∀ other ∈ items, key other ≠ key item

/-- Every item is fresh when it is inserted. -/
def AllFresh : List α → List α → Prop
  | [], _ => True
  | item :: new, items => Fresh key item items ∧ AllFresh new (emplace key item items)

variable {key}

/-! ## Insertion -/

theorem mem_of_mem_emplace {item other : α} {items : List α}
    (mem : other ∈ emplace key item items) : other = item ∨ other ∈ items := by
  induction items with
  | nil => simpa [emplace] using mem
  | cons first rest ih =>
      rw [emplace] at mem
      split at mem
      · exact List.mem_cons.mp mem
      · split at mem
        · rcases List.mem_cons.mp mem with rfl | later
          · exact .inr List.mem_cons_self
          · exact (ih later).imp_right fun old => List.mem_cons_of_mem _ old
        · exact .inr mem

theorem mem_emplace_of_mem {item other : α} {items : List α} (mem : other ∈ items) :
    other ∈ emplace key item items := by
  induction items with
  | nil => cases mem
  | cons first rest ih =>
      rw [emplace]
      split
      · exact List.mem_cons_of_mem _ mem
      · split
        · rcases List.mem_cons.mp mem with rfl | later
          · exact List.mem_cons_self
          · exact List.mem_cons_of_mem _ (ih later)
        · exact mem

theorem Fresh.mem_emplace {item : α} {items : List α} (fresh : Fresh key item items) :
    item ∈ emplace key item items := by
  induction items with
  | nil => exact List.mem_singleton.mpr rfl
  | cons first rest ih =>
      rw [emplace]
      split
      · exact List.mem_cons_self
      · rename_i notLess
        rw [if_pos (lt_of_le_of_ne (not_lt.mp notLess) (fresh first List.mem_cons_self))]
        exact List.mem_cons_of_mem _ (ih fun other mem => fresh other (List.mem_cons_of_mem _ mem))

@[simp]
theorem Fresh.mem_emplace_iff {item other : α} {items : List α}
    (fresh : Fresh key item items) :
    other ∈ emplace key item items ↔ other = item ∨ other ∈ items :=
  ⟨mem_of_mem_emplace, fun either => either.elim (fun same => same ▸ fresh.mem_emplace)
    mem_emplace_of_mem⟩

theorem Sorted.emplace {items : List α} (sorted : Sorted key items) (item : α) :
    Sorted key (emplace key item items) := by
  induction items with
  | nil => exact List.pairwise_singleton ..
  | cons first rest ih =>
      obtain ⟨least, later⟩ := List.pairwise_cons.mp sorted
      rw [KeyedSet.emplace]
      split
      · rename_i less
        refine List.pairwise_cons.mpr ⟨?_, sorted⟩
        intro other mem
        rcases List.mem_cons.mp mem with rfl | mem
        · exact less
        · exact less.trans (least other mem)
      · split
        · rename_i greater
          refine List.pairwise_cons.mpr ⟨?_, ih later⟩
          intro other mem
          rcases mem_of_mem_emplace mem with rfl | mem
          · exact greater
          · exact least other mem
        · exact sorted

@[simp]
theorem Fresh.length_emplace {item : α} {items : List α} (fresh : Fresh key item items) :
    (KeyedSet.emplace key item items).length = items.length + 1 := by
  induction items with
  | nil => rfl
  | cons first rest ih =>
      rw [KeyedSet.emplace]
      split
      · rfl
      · rename_i notLess
        rw [if_pos (lt_of_le_of_ne (not_lt.mp notLess) (fresh first List.mem_cons_self)),
          List.length_cons, ih fun other mem => fresh other (List.mem_cons_of_mem _ mem)]
        rfl

/-- An item with the greatest key goes to the end. -/
theorem emplace_of_greatest {item : α} {items : List α}
    (greatest : ∀ other ∈ items, key other < key item) :
    KeyedSet.emplace key item items = items ++ [item] := by
  induction items with
  | nil => rfl
  | cons first rest ih =>
      have less := greatest first List.mem_cons_self
      rw [KeyedSet.emplace, if_neg less.not_gt, if_pos less,
        ih fun other mem => greatest other (List.mem_cons_of_mem _ mem)]
      rfl

/-- Two items of a set with one key are the same item. -/
theorem Sorted.eq_of_key_eq {items : List α} (sorted : Sorted key items) {first second : α}
    (firstMem : first ∈ items) (secondMem : second ∈ items)
    (same : key first = key second) : first = second := by
  induction items with
  | nil => cases firstMem
  | cons item rest ih =>
      obtain ⟨least, later⟩ := List.pairwise_cons.mp sorted
      rcases List.mem_cons.mp firstMem with rfl | firstLater
      · rcases List.mem_cons.mp secondMem with rfl | secondLater
        · rfl
        · exact absurd same (least second secondLater).ne
      · rcases List.mem_cons.mp secondMem with rfl | secondLater
        · exact absurd same (least first firstLater).ne'
        · exact ih later firstLater secondLater

theorem Sorted.nodup {items : List α} (sorted : Sorted key items) : items.Nodup :=
  sorted.imp fun less same => less.ne (congrArg key same)

/-! ## Inserting several items -/

theorem mem_of_mem_emplaceAll {new items : List α} {other : α}
    (mem : other ∈ emplaceAll key new items) : other ∈ new ∨ other ∈ items := by
  induction new generalizing items with
  | nil => exact .inr mem
  | cons item new ih =>
      rcases ih mem with later | mem
      · exact .inl (List.mem_cons_of_mem _ later)
      · rcases mem_of_mem_emplace mem with rfl | old
        · exact .inl List.mem_cons_self
        · exact .inr old

theorem mem_emplaceAll_of_mem {new items : List α} {other : α} (mem : other ∈ items) :
    other ∈ emplaceAll key new items := by
  induction new generalizing items with
  | nil => exact mem
  | cons item new ih => exact ih (mem_emplace_of_mem mem)

theorem AllFresh.mem_emplaceAll_iff {new items : List α} (fresh : AllFresh key new items)
    {other : α} : other ∈ emplaceAll key new items ↔ other ∈ new ∨ other ∈ items := by
  induction new generalizing items with
  | nil => simp [emplaceAll]
  | cons item new ih =>
      change other ∈ emplaceAll key new (KeyedSet.emplace key item items) ↔ _
      rw [ih fresh.2, fresh.1.mem_emplace_iff, List.mem_cons, or_left_comm, or_assoc]

theorem AllFresh.fresh {new items : List α} (fresh : AllFresh key new items) {item : α}
    (mem : item ∈ new) : Fresh key item items := by
  induction new generalizing items with
  | nil => cases mem
  | cons first new ih =>
      rcases List.mem_cons.mp mem with rfl | later
      · exact fresh.1
      · intro other old
        exact ih fresh.2 later other (mem_emplace_of_mem old)

theorem Sorted.emplaceAll {items : List α} (sorted : Sorted key items) (new : List α) :
    Sorted key (emplaceAll key new items) := by
  induction new generalizing items with
  | nil => exact sorted
  | cons item new ih => exact ih (sorted.emplace item)

/-- Items with distinct keys that the set lacks are fresh. -/
theorem allFresh_of_distinct {new items : List α}
    (distinct : new.Pairwise fun first second => key first ≠ key second)
    (fresh : ∀ item ∈ new, Fresh key item items) : AllFresh key new items := by
  induction new generalizing items with
  | nil => exact trivial
  | cons item new ih =>
      obtain ⟨first, later⟩ := List.pairwise_cons.mp distinct
      refine ⟨fresh item List.mem_cons_self, ih later ?_⟩
      intro other mem third thirdMem
      rcases mem_of_mem_emplace thirdMem with rfl | old
      · exact first other mem
      · exact fresh other (List.mem_cons_of_mem _ mem) third old

/-- An item whose key the set lacks enters it along with items of other keys. -/
theorem mem_emplaceAll_of_fresh {new items : List α}
    (distinct : new.Pairwise fun first second => key first ≠ key second) {item : α}
    (mem : item ∈ new) (fresh : Fresh key item items) : item ∈ emplaceAll key new items := by
  induction new generalizing items with
  | nil => cases mem
  | cons first new ih =>
      obtain ⟨others, later⟩ := List.pairwise_cons.mp distinct
      change item ∈ emplaceAll key new (KeyedSet.emplace key first items)
      rcases List.mem_cons.mp mem with rfl | behind
      · exact mem_emplaceAll_of_mem fresh.mem_emplace
      · apply ih later behind
        intro other otherMem
        rcases mem_of_mem_emplace otherMem with rfl | old
        · exact others item behind
        · exact fresh other old

/-! ## Sizes -/

theorem emplace_perm (key : α → κ) (item : α) (items : List α) :
    emplace key item items = items ∨ (emplace key item items).Perm (item :: items) := by
  induction items with
  | nil => exact .inr (List.Perm.refl _)
  | cons first rest ih =>
      rw [KeyedSet.emplace]
      split
      · exact .inr (List.Perm.refl _)
      · split
        · rcases ih with same | perm
          · exact .inl (congrArg (first :: ·) same)
          · exact .inr ((perm.cons first).trans (List.Perm.swap item first rest))
        · exact .inl rfl

/-- Inserting adds some of the items. -/
theorem emplaceAll_perm (key : α → κ) (new items : List α) :
    ∃ inserted : List α, inserted.Sublist new ∧
      (emplaceAll key new items).Perm (inserted ++ items) := by
  induction new generalizing items with
  | nil => exact ⟨[], List.Sublist.refl _, List.Perm.refl _⟩
  | cons item new ih =>
      obtain ⟨inserted, sublist, perm⟩ := ih (KeyedSet.emplace key item items)
      rcases emplace_perm key item items with same | perm'
      · rw [same] at perm
        refine ⟨inserted, sublist.cons item, ?_⟩
        change (emplaceAll key new (KeyedSet.emplace key item items)).Perm _
        rwa [same]
      · refine ⟨item :: inserted, sublist.cons_cons item, perm.trans ?_⟩
        exact (perm'.append_left inserted).trans List.perm_middle

/-! ## Removal -/

@[simp]
theorem mem_erase {item other : α} {items : List α} :
    other ∈ erase key item items ↔ other ∈ items ∧ key other ≠ key item := by
  rw [erase, List.mem_filter, decide_eq_true_eq]

@[simp]
theorem mem_eraseAll {old items : List α} {other : α} :
    other ∈ eraseAll key old items ↔
      other ∈ items ∧ ∀ item ∈ old, key other ≠ key item := by
  induction old generalizing items with
  | nil => simp [eraseAll]
  | cons item old ih =>
      change other ∈ eraseAll key old (erase key item items) ↔ _
      rw [ih, mem_erase, List.forall_mem_cons, and_assoc]

theorem eraseAll_sublist (old items : List α) :
    (eraseAll key old items).Sublist items := by
  induction old generalizing items with
  | nil => exact List.Sublist.refl _
  | cons item old ih => exact (ih _).trans List.filter_sublist

theorem Sorted.eraseAll {items : List α} (sorted : Sorted key items) (old : List α) :
    Sorted key (eraseAll key old items) :=
  List.Pairwise.sublist (eraseAll_sublist old items) sorted

theorem eraseAll_eq_filter (old items : List α) :
    KeyedSet.eraseAll key old items =
      items.filter fun other => ∀ item ∈ old, key other ≠ key item := by
  induction old generalizing items with
  | nil =>
      refine (List.filter_eq_self.mpr ?_).symm
      intro other _
      exact decide_eq_true fun item mem => absurd mem List.not_mem_nil
  | cons item old ih =>
      change KeyedSet.eraseAll key old (erase key item items) = _
      rw [ih, erase, List.filter_filter]
      apply List.filter_congr
      intro other _
      rw [← Bool.decide_and]
      apply decide_eq_decide.mpr
      rw [List.forall_mem_cons, and_comm]

/-- Removing the items that satisfy a predicate leaves those that do not. -/
theorem Sorted.eraseAll_filter {items : List α} (sorted : Sorted key items) (p : α → Bool) :
    KeyedSet.eraseAll key (items.filter p) items = items.filter fun item => !p item := by
  rw [eraseAll_eq_filter]
  apply List.filter_congr
  intro other mem
  cases holds : p other with
  | true =>
      apply decide_eq_false
      intro all
      exact all other (List.mem_filter.mpr ⟨mem, holds⟩) rfl
  | false =>
      apply decide_eq_true
      intro item removed same
      obtain ⟨itemMem, itemHolds⟩ := List.mem_filter.mp removed
      rw [sorted.eq_of_key_eq mem itemMem same, itemHolds] at holds
      cases holds

/-- What is left after some items are inserted and others are removed weighs at most as
much as the new items and the old ones that are left. -/
theorem sum_eraseAll_emplaceAll_le (key : α → κ) (weight : α → Nat) (old new items : List α) :
    ((KeyedSet.eraseAll key old (KeyedSet.emplaceAll key new items)).map weight).sum ≤
      (new.map weight).sum + ((KeyedSet.eraseAll key old items).map weight).sum := by
  obtain ⟨inserted, sublist, perm⟩ := emplaceAll_perm key new items
  rw [eraseAll_eq_filter, eraseAll_eq_filter, ((perm.filter _).map weight).sum_nat,
    List.filter_append, List.map_append, List.sum_append]
  have fewer : (inserted.filter fun other => ∀ item ∈ old, key other ≠ key item).Sublist new :=
    List.filter_sublist.trans sublist
  exact Nat.add_le_add_right ((fewer.map weight).sum_le_sum fun _ _ => Nat.zero_le _) _

/-- Removing the first items of a set leaves the others. -/
theorem Sorted.eraseAll_take {items : List α} (sorted : Sorted key items) (count : Nat) :
    KeyedSet.eraseAll key (items.take count) items = items.drop count := by
  have apart := sorted
  rw [Sorted, ← List.take_append_drop count items, List.pairwise_append] at apart
  obtain ⟨-, -, less⟩ := apart
  have first : (items.take count).filter (fun other =>
      ∀ item ∈ items.take count, key other ≠ key item) = [] := by
    rw [List.filter_eq_nil_iff]
    intro other mem all
    exact (of_decide_eq_true all) other mem rfl
  have second : (items.drop count).filter (fun other =>
      ∀ item ∈ items.take count, key other ≠ key item) = items.drop count := by
    rw [List.filter_eq_self]
    intro other mem
    exact decide_eq_true fun item taken => (less item taken other mem).ne'
  calc KeyedSet.eraseAll key (items.take count) items
      = items.filter (fun other => ∀ item ∈ items.take count, key other ≠ key item) :=
        eraseAll_eq_filter ..
    _ = (items.take count ++ items.drop count).filter
          (fun other => ∀ item ∈ items.take count, key other ≠ key item) := by
        rw [List.take_append_drop]
    _ = items.drop count := by
        rw [List.filter_append, first, second, List.nil_append]

end ZnsLsm.KeyedSet
