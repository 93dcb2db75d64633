import Mathlib.Data.List.Induction
import Mathlib.Data.List.Nodup

/-!
# Forgetting the least recently touched key

A set of at most `cap` keys is kept as a list, most recently touched first.  A new key that
finds the list full takes the place of the last one.  What the order means is a statement
about the whole history: `Ordered` compares the list with all touches, newest first.
-/

namespace ZnsLsm.Recency

universe u

variable {κ : Type u} [DecidableEq κ]

/-- Bring a key to the front. -/
def touch (key : κ) (keys : List κ) : List κ :=
  key :: keys.erase key

/-- Touch a key, new or old; the last key makes room for a new one if `cap` keys are there. -/
def enter (cap : Nat) (key : κ) (keys : List κ) : List κ :=
  if key ∈ keys then touch key keys
  else if keys.length = cap then key :: keys.dropLast
  else key :: keys

/-- The keys were touched, and a key stands before another if its last touch is newer. -/
structure Ordered (history keys : List κ) : Prop where
  touched : ∀ key ∈ keys, key ∈ history
  recent : keys.Pairwise (fun key other => history.idxOf key < history.idxOf other)

variable {cap : Nat} {key other new : κ} {history keys rest front : List κ}

@[simp]
theorem enter_of_mem (mem : key ∈ keys) : enter cap key keys = touch key keys :=
  if_pos mem

@[simp]
theorem enter_of_full (absent : key ∉ keys) (full : keys.length = cap) :
    enter cap key keys = key :: keys.dropLast := by
  rw [enter, if_neg absent, if_pos full]

@[simp]
theorem enter_of_room (absent : key ∉ keys) (room : keys.length ≠ cap) :
    enter cap key keys = key :: keys := by
  rw [enter, if_neg absent, if_neg room]

/-! ## The order of the last touches -/

namespace Ordered

theorem nil : Ordered ([] : List κ) [] where
  touched _ mem := mem
  recent := List.Pairwise.nil

theorem nodup (ordered : Ordered history keys) : keys.Nodup := by
  apply ordered.recent.imp
  rintro first _ less rfl
  exact Nat.lt_irrefl _ less

theorem sublist (ordered : Ordered history keys) (sub : rest.Sublist keys) :
    Ordered history rest where
  touched other mem := ordered.touched other (sub.mem mem)
  recent := ordered.recent.sublist sub

/-- A touch puts its key before all others. -/
theorem push (ordered : Ordered history keys) (absent : key ∉ keys) :
    Ordered (key :: history) (key :: keys) where
  touched other mem := by
    rcases List.mem_cons.mp mem with rfl | old
    · exact List.mem_cons_self
    · exact List.mem_cons_of_mem _ (ordered.touched other old)
  recent := by
    have later : ∀ other ∈ keys, (key :: history).idxOf other = history.idxOf other + 1 := by
      intro other mem
      exact List.idxOf_cons_ne _ fun same => absent (same ▸ mem)
    apply List.pairwise_cons.mpr
    constructor
    · intro other mem
      rw [List.idxOf_cons_self, later other mem]
      exact Nat.succ_pos _
    · apply ordered.recent.imp_of_mem
      intro first second firstMem secondMem less
      rw [later first firstMem, later second secondMem]
      exact Nat.succ_lt_succ less

theorem touch (ordered : Ordered history keys) (key : κ) :
    Ordered (key :: history) (touch key keys) :=
  (ordered.sublist List.erase_sublist).push ordered.nodup.not_mem_erase

theorem enter (ordered : Ordered history keys) (cap : Nat) (key : κ) :
    Ordered (key :: history) (enter cap key keys) := by
  by_cases mem : key ∈ keys
  · rw [enter_of_mem mem]
    exact ordered.touch key
  · by_cases full : keys.length = cap
    · rw [enter_of_full mem full]
      exact (ordered.sublist (List.dropLast_sublist keys)).push
        fun kept => mem ((List.dropLast_sublist keys).mem kept)
    · rw [enter_of_room mem full]
      exact ordered.push mem

/-- The last key is the one whose last touch is oldest. -/
theorem oldest_iff (ordered : Ordered history keys) (mem : key ∈ keys) :
    keys.getLast? = some key ↔
      ∀ other ∈ keys, other ≠ key → history.idxOf other < history.idxOf key := by
  obtain ⟨front, last, rfl⟩ : ∃ front last, keys = front ++ [last] :=
    ⟨keys.dropLast, keys.getLast (List.ne_nil_of_mem mem),
      (List.dropLast_append_getLast _).symm⟩
  have before : ∀ other ∈ front, history.idxOf other < history.idxOf last :=
    fun other old => (List.pairwise_append.mp ordered.recent).2.2 other old last
      (List.mem_singleton_self last)
  rw [List.getLast?_concat, Option.some.injEq]
  constructor
  · rintro rfl other old differ
    rcases List.mem_append.mp old with old | same
    · exact before other old
    · exact absurd (List.mem_singleton.mp same) differ
  · intro oldest
    by_contra differ
    have inFront : key ∈ front := by
      rcases List.mem_append.mp mem with old | same
      · exact old
      · exact absurd (List.mem_singleton.mp same).symm differ
    exact Nat.lt_asymm (before key inFront)
      (oldest last (List.mem_append_right _ (List.mem_singleton_self last)) differ)

end Ordered

/-! ## What stays and what leaves -/

@[simp]
theorem mem_touch (mem : key ∈ keys) : other ∈ touch key keys ↔ other ∈ keys :=
  ((List.perm_cons_erase mem).mem_iff).symm

@[simp]
theorem length_touch (mem : key ∈ keys) : (touch key keys).length = keys.length :=
  ((List.perm_cons_erase mem).length_eq).symm

theorem length_enter_le (pos : 0 < cap) (le : keys.length ≤ cap) (key : κ) :
    (enter cap key keys).length ≤ cap := by
  by_cases mem : key ∈ keys
  · rw [enter_of_mem mem, length_touch mem]
    exact le
  · by_cases full : keys.length = cap
    · rw [enter_of_full mem full, List.length_cons, List.length_dropLast, full]
      exact Nat.le_of_eq (Nat.sub_add_cancel pos)
    · rw [enter_of_room mem full]
      exact Nat.lt_of_le_of_ne le full

/-- A key leaves for a new one, if the set is full, and only the last key does. -/
theorem notMem_enter_iff (nodup : keys.Nodup) (mem : key ∈ keys) :
    key ∉ enter cap new keys ↔
      new ∉ keys ∧ keys.length = cap ∧ keys.getLast? = some key := by
  by_cases old : new ∈ keys
  · rw [enter_of_mem old, mem_touch old]
    exact iff_of_false (not_not.mpr mem) fun leaves => leaves.1 old
  · have differ : key ≠ new := fun same => old (same ▸ mem)
    by_cases full : keys.length = cap
    · rw [enter_of_full old full, List.mem_cons]
      obtain ⟨front, last, rfl⟩ : ∃ front last, keys = front ++ [last] :=
        ⟨keys.dropLast, keys.getLast (List.ne_nil_of_mem mem),
          (List.dropLast_append_getLast _).symm⟩
      have apart := (List.nodup_append.mp nodup).2.2
      simp only [differ, false_or, List.dropLast_concat, List.getLast?_concat, Option.some.injEq,
        old, not_false_eq_true, full, true_and]
      constructor
      · intro gone
        rcases List.mem_append.mp mem with kept | same
        · exact absurd kept gone
        · exact (List.mem_singleton.mp same).symm
      · rintro rfl kept
        exact apart last kept last (List.mem_singleton_self last) rfl
    · rw [enter_of_room old full]
      exact iff_of_false (not_not.mpr (List.mem_cons_of_mem _ mem)) fun leaves => full leaves.2.1

/-! ## Admitting many keys -/

/-- The keys after some more were entered, in order. -/
def enterAll (cap : Nat) (keys incoming : List κ) : List κ :=
  incoming.foldl (fun keys key => enter cap key keys) keys

@[simp]
theorem enterAll_concat (cap : Nat) (keys incoming : List κ) (key : κ) :
    enterAll cap keys (incoming ++ [key]) = enter cap key (enterAll cap keys incoming) :=
  List.foldl_concat ..

/-- Those of the incoming keys that are not there when it is their turn. -/
def misses (cap : Nat) : List κ → List κ → List κ
  | [], _ => []
  | key :: incoming, keys =>
      if key ∈ keys then misses cap incoming (enter cap key keys)
      else key :: misses cap incoming (enter cap key keys)

theorem misses_sublist (cap : Nat) (incoming keys : List κ) :
    (misses cap incoming keys).Sublist incoming := by
  induction incoming generalizing keys with
  | nil => exact List.Sublist.slnil
  | cons key incoming ih =>
      rw [misses]
      split
      · exact (ih _).cons key
      · exact (ih _).cons_cons key

/-- Fewer than `cap` keys at the front stay when another key is entered. -/
theorem enter_append (absent : key ∉ front) (room : front.length < cap) (rest : List κ) :
    ∃ rest', enter cap key (front ++ rest) = key :: front ++ rest' := by
  by_cases mem : key ∈ front ++ rest
  · rw [enter_of_mem mem, touch, List.erase_append_right _ absent]
    exact ⟨_, rfl⟩
  · by_cases full : (front ++ rest).length = cap
    · have restNe : rest ≠ [] := by
        rintro rfl
        rw [List.append_nil] at full
        exact Nat.ne_of_lt room full
      rw [enter_of_full mem full, List.dropLast_append_of_ne_nil restNe]
      exact ⟨_, rfl⟩
    · rw [enter_of_room mem full]
      exact ⟨_, rfl⟩

/-- Up to `cap` distinct keys are all there once they have been entered. -/
theorem enterAll_eq (keys : List κ) {incoming : List κ} (nodup : incoming.Nodup)
    (few : incoming.length ≤ cap) :
    ∃ rest, enterAll cap keys incoming = incoming.reverse ++ rest := by
  induction incoming using List.reverseRecOn with
  | nil => exact ⟨keys, rfl⟩
  | append_singleton incoming key ih =>
      obtain ⟨first, -, apart⟩ := List.nodup_append.mp nodup
      rw [List.length_append, List.length_singleton] at few
      obtain ⟨rest, eq⟩ := ih first (Nat.le_of_succ_le few)
      have absent : key ∉ incoming.reverse := fun mem =>
        apart key (List.mem_reverse.mp mem) key (List.mem_singleton_self key) rfl
      obtain ⟨rest', eq'⟩ := enter_append absent
        (show incoming.reverse.length < cap by rwa [List.length_reverse]) rest
      refine ⟨rest', ?_⟩
      rw [enterAll_concat, eq, eq', List.reverse_concat]

theorem mem_enterAll (keys : List κ) {incoming : List κ} (nodup : incoming.Nodup)
    (few : incoming.length ≤ cap) (mem : key ∈ incoming) : key ∈ enterAll cap keys incoming := by
  obtain ⟨rest, eq⟩ := enterAll_eq keys nodup few
  rw [eq]
  exact List.mem_append_left _ (List.mem_reverse.mpr mem)

end ZnsLsm.Recency
