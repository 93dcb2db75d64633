import ZnsLsm.PointerGraph
import ZnsLsm.Store.TowerMap

/-!
# The memory of the towers

`SkipList` allocates a node for every copy of a key and frees them only in `clear`.  Whatever
`rand` returns, every node that was allocated and not freed can be reached from the head, and
`clear` frees all of them.
-/

namespace ZnsLsm.Store

open ZnsLsm.PointerGraph ZnsLsm.SortedMap

/-- The pointers of a node. -/
def Node.targets (node : Node) : Set Nat :=
  {a | node.right = some a ∨ node.down = some a}

namespace Towers

/-- What the head leads to. -/
abbrev Reaches (list : Towers) : Nat → Prop :=
  Reach Node.targets list.heap list.head

/-- No node is out of reach, and the addresses that were not given out have no nodes. -/
structure Owned (heap : Heap) (head : Option Nat) (next : Nat) : Prop where
  tight : Tight Node.targets heap head
  unused : ∀ a ≥ next, heap a = none

variable {heap heap' : Heap} {head : Option Nat} {next : Nat} {list list' : Towers}

theorem owned_new : Owned new.heap new.head new.next :=
  ⟨tight_empty, fun _ _ => rfl⟩

theorem unused_update {value : Option Node} {a : Nat} (unused : ∀ b ≥ next, heap b = none)
    (used : a < next) : ∀ b ≥ next, Function.update heap a value b = none := by
  intro b le
  rw [Function.update_of_ne (by omega)]
  exact unused b le

theorem lt_of_live {a : Nat} {node : Node} (unused : ∀ b ≥ next, heap b = none)
    (live : heap a = some node) : a < next := by
  by_contra le
  exact absurd (live.symm.trans (unused a (Nat.le_of_not_lt le))) (Option.some_ne_none _)

/-! ## Inserting -/

theorem Owned.replaceLoop (owned : Owned heap head next) {key : Nat} {value : Str}
    {pathList : List Nat} (done : replaceLoop key value pathList heap = some heap') :
    Owned heap' head next := by
  induction pathList generalizing heap with
  | nil =>
      cases done
      exact owned
  | cons p pathList ih =>
      obtain ⟨node, here, done⟩ := Option.bind_eq_some_iff.mp done
      split at done
      · have changed :
            Owned (Function.update heap p (some { node with val := value })) head next :=
          ⟨owned.tight.modify here rfl,
            unused_update owned.unused (lt_of_live owned.unused here)⟩
        exact ih changed done
      · cases done
        exact owned

theorem Owned.insertLoop (owned : Owned heap head next) {key : Nat} {value : Str}
    {coin : Nat → Bool} {pathList : List Nat} {i : Nat} {downNode : Option Nat}
    {inserted : Inserted}
    (done : insertLoop key value coin pathList i downNode heap next = some inserted) :
    Owned inserted.heap head inserted.next := by
  induction pathList generalizing i downNode heap next with
  | nil =>
      cases done
      exact owned
  | cons insert pathList ih =>
      obtain ⟨node, here, done⟩ := Option.bind_eq_some_iff.mp done
      have used := lt_of_live owned.unused here
      have spliced : Owned
          (Function.update (Function.update heap next (some ⟨node.right, downNode, key, value⟩))
            insert (some { node with right := some next })) head (next + 1) := by
        refine ⟨owned.tight.splice here (owned.unused next le_rfl) (.inl rfl) ?_, ?_⟩
        · rintro a (right | down)
          · exact .inr (.inl right)
          · exact .inl (.inr down)
        · refine unused_update (unused_update ?_ (Nat.lt_succ_self next)) (by omega)
          exact fun b le => owned.unused b (by omega)
      dsimp only at done
      split at done
      · exact ih spliced done
      · cases done
        exact spliced

theorem Owned.addRow (owned : Owned list.heap list.head list.next) (key : Nat) (value : Str)
    (downNode : Option Nat) :
    Owned (list.addRow key value downNode).heap (list.addRow key value downNode).head
      (list.addRow key value downNode).next := by
  have pushed : Tight Node.targets
      (Function.update list.heap list.next
        (some { Node.blank with right := some (list.next + 1), down := list.head }))
      (some list.next) :=
    owned.tight.push (owned.unused _ le_rfl) fun a isHead => .inr isHead
  refine ⟨pushed.fill ?_ (.follow (.root rfl) (Function.update_self ..) (.inl rfl)) _, ?_⟩
  · rw [Function.update_of_ne (by omega)]
    exact owned.unused _ (by omega)
  · change ∀ b ≥ list.next + 2, _
    refine unused_update (unused_update ?_ (by omega)) (by omega)
    exact fun b le => owned.unused b (by omega)

theorem Owned.put (owned : Owned list.heap list.head list.next) {key : Nat} {value : Str}
    {coin : Nat → Bool} (done : list.put key value coin = some list') :
    Owned list'.heap list'.head list'.next := by
  obtain ⟨pathList, -, done⟩ := Option.bind_eq_some_iff.mp done
  obtain ⟨found, -, done⟩ := Option.bind_eq_some_iff.mp done
  split at done
  · obtain ⟨heap, replaced, done⟩ := Option.bind_eq_some_iff.mp done
    cases done
    exact owned.replaceLoop replaced
  · obtain ⟨inserted, ran, done⟩ := Option.bind_eq_some_iff.mp done
    have after := owned.insertLoop ran
    cases done
    split
    · exact Owned.addRow (by exact after) ..
    · exact after

end Towers

/-! ## Clearing -/

namespace Linked

variable {heap : Heap} {next : Nat} {rows : Rows} {value : Nat → Nat → Str}

/-- The addresses of the nodes of the rows. -/
def places (rows : Rows) : Set Nat :=
  {a | ∃ level before after, level < rows.height ∧ rows.cells level = before ++ after ∧
    a = rows.addr level before}

theorem mem_places_cell {level : Nat} {cell : Nat × Nat} (lt : level < rows.height)
    (mem : cell ∈ rows.cells level) : cell.2 ∈ places rows := by
  obtain ⟨before, after, split⟩ := List.append_of_mem mem
  refine ⟨level, before ++ [cell], after, lt, ?_, (Rows.addr_concat ..).symm⟩
  rw [split, List.append_assoc, List.singleton_append]

theorem mem_places_headBelow {level a : Nat} (le : level ≤ rows.height)
    (isHead : rows.headBelow level = some a) : a ∈ places rows := by
  cases level with
  | zero => cases isHead
  | succ level =>
      cases isHead
      exact ⟨level, [], rows.cells level, le, rfl, rfl⟩

/-- Pointers lead from the rows to the rows only. -/
theorem reach_subset (linked : Linked heap next rows value) {a : Nat}
    (reach : Reach Node.targets heap (rows.headBelow rows.height) a) : a ∈ places rows := by
  refine reach.mem (fun _ => mem_places_headBelow le_rfl) ?_
  rintro _ ⟨level, before, after, lt, split, rfl⟩ node here b target
  cases (linked.nodes lt split).symm.trans here
  rcases target with right | down
  · obtain ⟨cell, first, rfl⟩ := Option.map_eq_some_iff.mp right
    refine mem_places_cell lt ?_
    rw [split]
    exact List.mem_append_right _ (List.mem_of_mem_head? first)
  · change rows.down level before = some b at down
    rcases Rows.last_cases before with rfl | ⟨first, cell, rfl⟩
    · exact mem_places_headBelow lt.le down
    · rw [Rows.down_concat] at down
      cases level with
      | zero => cases down
      | succ level => exact mem_places_cell (Nat.lt_of_succ_lt lt) (mem_of_find down)

theorem live_of_mem_places (linked : Linked heap next rows value) {a : Nat}
    (mem : a ∈ places rows) : (heap a).isSome := by
  obtain ⟨level, before, after, lt, split, rfl⟩ := mem
  rw [linked.nodes lt split]
  rfl

end Linked

namespace Towers

variable {heap heap' : Heap}

/-- What `clear` deletes, it deletes with all that is to the right. -/
structure Freed (heap heap' : Heap) : Prop where
  frame : ∀ a, heap' a = none ∨ heap' a = heap a
  right : ∀ a node, heap a = some node → heap' a = none → ∀ b, node.right = some b →
    heap' b = none

theorem Freed.trans {heap'' : Heap} (first : Freed heap heap') (second : Freed heap' heap'') :
    Freed heap heap'' where
  frame a := by
    rcases second.frame a with gone | same
    · exact .inl gone
    · rw [same]
      exact first.frame a
  right a node here gone b target := by
    rcases first.frame a with goneBefore | same
    · have goneRight := first.right a node here goneBefore b target
      rcases second.frame b with gone | same
      · exact gone
      · rw [same, goneRight]
    · exact second.right a node (same.trans here) gone b target

theorem freed_of_deleteRow {fuel p : Nat} (done : deleteRow fuel p heap = some heap') :
    heap' p = none ∧ Freed heap heap' := by
  induction fuel generalizing p heap with
  | zero => cases done
  | succ fuel ih =>
      obtain ⟨node, here, done⟩ := Option.bind_eq_some_iff.mp done
      dsimp only at done
      have frame : ∀ a, Function.update heap p none a = none ∨
          Function.update heap p none a = heap a := by
        intro a
        by_cases equal : a = p
        · exact .inl (equal ▸ Function.update_self ..)
        · exact .inr (Function.update_of_ne equal ..)
      cases right : node.right with
      | none =>
          rw [right] at done
          cases done
          refine ⟨Function.update_self .., frame, ?_⟩
          intro a other live gone b target
          by_cases equal : a = p
          · cases equal
            cases here.symm.trans live
            exact absurd (target.symm.trans right) (Option.some_ne_none b)
          · rw [Function.update_of_ne equal, live] at gone
            cases gone
      | some q =>
          rw [right] at done
          obtain ⟨first, freed⟩ := ih done
          refine ⟨?_, ?_, ?_⟩
          · rcases freed.frame p with gone | same
            · exact gone
            · rw [same, Function.update_self]
          · intro a
            rcases freed.frame a with gone | same
            · exact .inl gone
            · rw [same]
              exact frame a
          · intro a other live gone b target
            by_cases equal : a = p
            · cases equal
              cases here.symm.trans live
              cases right.symm.trans target
              exact first
            · exact freed.right a other ((Function.update_of_ne equal ..).trans live) gone b target

end Towers

namespace Linked

variable {heap heap' heap'' : Heap} {next : Nat} {rows : Rows} {value : Nat → Nat → Str}

/-- `clear` deletes the heads of all rows. -/
theorem freed_of_deleteRows (linked : Linked heap next rows value) {level fuel : Nat}
    (lt : level < rows.height)
    (kept : ∀ level' before after, level' ≤ level → rows.cells level' = before ++ after →
      heap' (rows.addr level' before) = some (rows.node value level' before after))
    (done : Towers.deleteRows next fuel (rows.head level) heap' = some heap'') :
    Towers.Freed heap' heap'' ∧ ∀ level' ≤ level, heap'' (rows.head level') = .none := by
  induction fuel generalizing level heap' with
  | zero => cases done
  | succ fuel ih =>
      have here : heap' (rows.head level) = _ := kept level [] _ le_rfl (List.nil_append _).symm
      have keptRow : ∀ level' before' after', level' < level ∨ level' = level ∧ [] <+: before' →
          rows.cells level' = before' ++ after' →
            heap' (rows.addr level' before') = some (rows.node value level' before' after') :=
        fun level' before' after' le => kept level' before' after' (by omega)
      obtain ⟨rest, deleted, below⟩ :=
        linked.deleteRow_eq lt (List.nil_append _).symm (linked.room level lt) keptRow
      change Towers.deleteRow next (rows.head level) heap' = some rest at deleted
      obtain ⟨gone, freed⟩ := Towers.freed_of_deleteRow deleted
      rw [Towers.deleteRows, here] at done
      change (Towers.deleteRow next (rows.head level) heap').bind _ = _ at done
      rw [deleted, Option.bind_some] at done
      cases level with
      | zero =>
          cases done
          refine ⟨freed, fun level' le => ?_⟩
          rw [Nat.le_zero.mp le]
          exact gone
      | succ level =>
          obtain ⟨freed', heads⟩ := ih (Nat.lt_of_succ_lt lt)
            (fun level' before after le => below level' before after (Nat.lt_succ_of_le le)) done
          refine ⟨freed.trans freed', fun level' le => ?_⟩
          rcases Nat.le_succ_iff.mp le with less | rfl
          · exact heads level' less
          · rcases freed'.frame (rows.head (level + 1)) with gone' | same
            · exact gone'
            · rw [same]
              exact gone

/-- So it deletes all nodes of the rows. -/
theorem places_freed (linked : Linked heap next rows value) (freed : Towers.Freed heap heap')
    (heads : ∀ level < rows.height, heap' (rows.head level) = .none) {a : Nat}
    (mem : a ∈ places rows) : heap' a = .none := by
  obtain ⟨level, before, after, lt, split, rfl⟩ := mem
  induction before using List.reverseRecOn generalizing after with
  | nil => exact heads level lt
  | append_singleton before cell ih =>
      rw [List.append_assoc, List.singleton_append] at split
      rw [Rows.addr_concat]
      exact freed.right _ _ (linked.nodes lt split) (ih _ split) _ rfl

end Linked

/-- After `clear` the memory is empty. -/
theorem Towers.Owned.clear {list list' : Towers} {bottom : SkipList}
    (owned : Towers.Owned list.heap list.head list.next) (represents : Represents list bottom)
    (done : list.clear = some list') :
    list'.head = none ∧ list'.next = list.next ∧ ∀ a, list'.heap a = none := by
  obtain ⟨rows, linked, head, -⟩ := represents.rows
  rw [Towers.clear] at done
  cases isHead : list.head with
  | none =>
      rw [isHead] at done owned
      cases done
      exact ⟨isHead, rfl, owned.tight.eq_none⟩
  | some p =>
      rw [isHead] at done
      obtain ⟨heap, deleted, done⟩ := Option.bind_eq_some_iff.mp done
      cases done
      refine ⟨rfl, rfl, fun a => ?_⟩
      cases height : rows.height with
      | zero =>
          rw [head, height] at isHead
          cases isHead
      | succ level =>
          have lt : level < rows.height := height ▸ Nat.lt_succ_self level
          rw [head, height] at isHead
          cases isHead
          obtain ⟨freed, heads⟩ := linked.freed_of_deleteRows lt
            (fun level' before after le => linked.nodes (Nat.lt_of_le_of_lt le lt)) deleted
          rcases freed.frame a with gone | same
          · exact gone
          · cases live : list.heap a with
            | none => exact same.trans live
            | some node =>
                have reached := owned.tight a node live
                rw [head] at reached
                exact linked.places_freed freed
                  (fun level' lt' => heads level' (by omega)) (linked.reach_subset reached)

/-! ## Runs -/

namespace Towers

variable {list : Towers} {calls : List Call}

theorem owned_of_run (valid : ∀ call ∈ calls, call.Valid) (ran : run calls = some list) :
    Owned list.heap list.head list.next := by
  induction calls generalizing list with
  | nil =>
      cases ran
      exact owned_new
  | cons call calls ih =>
      obtain ⟨before, ranBefore, done⟩ := Option.bind_eq_some_iff.mp ran
      have validBefore : ∀ call ∈ calls, call.Valid := fun other mem => valid other (.tail call mem)
      have owned := ih validBefore ranBefore
      cases call with
      | put key value coin => exact owned.put done
      | get key =>
          obtain ⟨-, -, rfl⟩ := Option.map_eq_some_iff.mp done
          exact owned
      | clear =>
          obtain ⟨other, ranOther, represents⟩ := represents_run validBefore
          cases ranBefore.symm.trans ranOther
          obtain ⟨-, -, empty⟩ := owned.clear represents done
          refine ⟨?_, fun a _ => empty a⟩
          intro a node here
          exact absurd (here.symm.trans (empty a)) (Option.some_ne_none node)

/-- The nodes in memory are those that the head leads to, and `clear` frees them all. -/
structure Leakless (list : Towers) : Prop where
  live : ∀ a, (list.heap a).isSome ↔ list.Reaches a
  unused : ∀ a ≥ list.next, list.heap a = none
  cleared : ∃ list', list.clear = some list' ∧ list'.head = none ∧ ∀ a, list'.heap a = none

/-- Whatever `rand` returns, a run loses no node, follows no pointer to a deleted one and
deletes every node once. -/
theorem leakless_of_run (valid : ∀ call ∈ calls, call.Valid) :
    ∃ list, run calls = some list ∧ list.Leakless := by
  obtain ⟨list, ran, represents⟩ := represents_run valid
  have owned := owned_of_run valid ran
  refine ⟨list, ran, ?_, owned.unused, ?_⟩
  · intro a
    constructor
    · intro live
      obtain ⟨node, here⟩ := Option.isSome_iff_exists.mp live
      exact owned.tight a node here
    · intro reached
      obtain ⟨rows, linked, head, -⟩ := represents.rows
      rw [Reaches, head] at reached
      exact linked.live_of_mem_places (linked.reach_subset reached)
  · obtain ⟨list', done, -⟩ := represents.clear
    obtain ⟨head, -, empty⟩ := owned.clear represents done
    exact ⟨list', done, head, empty⟩

/-- The nodes of key 7 are freed, and a tower is built and passed by another key. -/
theorem leakless_of_rebuilt :
    ∃ list,
      run [.put uint64Max .del fun _ => false, .put 5 .empty fun i => i == 0, .clear,
        .put 7 .del fun _ => false] = some list ∧
      list.heap 1 = none ∧ (list.heap 4).isSome ∧ list.Leakless := by
  obtain ⟨list, ran, leakless⟩ :=
    @leakless_of_run [.put uint64Max .del fun _ => false, .put 5 .empty fun i => i == 0, .clear,
      .put 7 .del fun _ => false] (by simp [Call.Valid, uint64Max])
  refine ⟨list, ran, ?_, ?_, leakless⟩
  · cases ran
    rfl
  · cases ran
    rfl

end Towers

end ZnsLsm.Store
