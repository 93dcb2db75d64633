import Mathlib.Data.List.Sort
import ZnsLsm.Store.Compaction

/-!
# Runs of the store

The public operations of the store as commands of a transition system.  A step is an
invocation: a command together with the order in which priority queues hand out
tables and the fuel of the recursion.  `calls` lists the compactions that a command
goes through, each with the state in which it starts.
-/

namespace ZnsLsm.Store

open ZnsLsm.Pool (sstableSize)
open ZnsLsm.Transition

inductive Command
  | put (key : Nat) (s : Str)
  | get (key : Nat)
  | del (key : Nat)

/-- What a command returns. -/
inductive Reply
  | done
  | value (s : Str)
  | found (flag : Bool)
  deriving DecidableEq

structure Invocation where
  command : Command
  pops : List Table → List Table
  valid : Pops pops
  fuel : Nat

/-- The compaction of one level, with the state in which it starts. -/
structure CompactionCall where
  pops : List Table → List Table
  store : KVStore
  level : Nat

/-- The entry of a command fits into a table. -/
def Fits (s : Str) : Prop :=
  initialSize + entrySize s ≤ sstableSize

instance (s : Str) : Decidable (Fits s) :=
  inferInstanceAs (Decidable (_ ≤ _))

theorem fits_del : Fits .del := by
  decide

/-- The entry of a command fits into a table. -/
def Command.Fits : Command → Prop
  | .put _ s => Store.Fits s
  | .get _ => True
  | .del _ => True

namespace KVStore

def exec (pops : List Table → List Table) (fuel : Nat) (store : KVStore) :
    Command → Except Fault (Reply × KVStore)
  | .put key s => do
      let store ← store.put pops fuel key s
      pure (.done, store)
  | .get key =>
      let (ans, store) := store.get key
      pure (.value ans, store)
  | .del key => do
      let (flag, store) ← store.del pops fuel key
      pure (.found flag, store)

/-- All runs of the store. -/
def system : System KVStore Invocation where
  Init store := store = new
  Step store invocation store' :=
    ∃ reply, store.exec invocation.pops invocation.fuel invocation.command = .ok (reply, store')

/-! ## Commands that return -/

section Exec

variable {pops : List Table → List Table} {fuel key : Nat} {s : Str} {store store' : KVStore}
  {reply : Reply}

@[simp]
theorem exec_del_of_found (found : (store.get key).1 ≠ .empty) :
    store.exec pops fuel (.del key) =
      (store.get key).2.put pops fuel key .del >>= fun next => .ok (.found true, next) := by
  change (if (store.get key).1 ≠ .empty then _ else _) >>= _ = _
  rw [if_pos found, bind_assoc]
  rfl

@[simp]
theorem exec_del_of_absent (absent : ¬(store.get key).1 ≠ .empty) :
    store.exec pops fuel (.del key) = .ok (.found false, (store.get key).2) := by
  change (if (store.get key).1 ≠ .empty then _ else _) >>= _ = _
  rw [if_neg absent]
  rfl

theorem exec_put_ok (ok : store.exec pops fuel (.put key s) = .ok (reply, store')) :
    reply = .done ∧ store.put pops fuel key s = .ok store' := by
  cases done : store.put pops fuel key s with
  | error fault =>
      rw [exec, done] at ok
      cases ok
  | ok next =>
      rw [exec, done] at ok
      cases ok
      exact ⟨rfl, rfl⟩

theorem exec_get_ok (ok : store.exec pops fuel (.get key) = .ok (reply, store')) :
    reply = .value (store.get key).1 ∧ store' = (store.get key).2 := by
  cases ok
  exact ⟨rfl, rfl⟩

theorem exec_del_ok (ok : store.exec pops fuel (.del key) = .ok (reply, store')) :
    (store.get key).1 ≠ .empty ∧ reply = .found true ∧
        (store.get key).2.put pops fuel key .del = .ok store' ∨
      ¬(store.get key).1 ≠ .empty ∧ reply = .found false ∧ store' = (store.get key).2 := by
  by_cases found : (store.get key).1 ≠ .empty
  · rw [exec_del_of_found found] at ok
    cases done : (store.get key).2.put pops fuel key .del with
    | error fault =>
        rw [done] at ok
        cases ok
    | ok next =>
        rw [done] at ok
        cases ok
        exact .inl ⟨found, rfl, rfl⟩
  · rw [exec_del_of_absent found] at ok
    cases ok
    exact .inr ⟨found, rfl, rfl⟩

end Exec

/-! ## The compactions of a command -/

/-- The compactions of `compactionForLevel(level)`. -/
def cascadeCalls (pops : List Table → List Table) :
    Nat → Nat → KVStore → List CompactionCall
  | 0, _, _ => []
  | fuel + 1, level, store =>
      if level ≠ 1 ∧ (store.ssTable (level - 1)).length ≤ upperNum (level - 1) then
        []
      else
        ⟨pops, store, level⟩ ::
          match store.compactLevel pops level with
          | .ok store => cascadeCalls pops fuel (level + 1) store
          | .error _ => []

/-- The memtable after `put` has accounted for a new entry. -/
def charged (store : KVStore) (key : Nat) (s : Str) : SkipList :=
  { store.memTable with memory := charge store.memTable.memory (store.memTable.get key) s }

/-- The state after the flush in `put` and the second account for the entry. -/
def recharge (store : KVStore) (val s : Str) : KVStore :=
  { store with memTable := { store.memTable with memory := charge store.memTable.memory val s } }

def putCalls (pops : List Table → List Table) (fuel : Nat) (store : KVStore) (key : Nat)
    (s : Str) : List CompactionCall :=
  if sstableSize < (store.charged key s).memory then
    match store.flush (store.charged key s) with
    | .error _ => []
    | .ok flushed =>
        if level0 < flushed.levelNum 0 then
          cascadeCalls pops fuel 1 (flushed.recharge (store.memTable.get key) s)
        else
          []
  else
    []

def calls (pops : List Table → List Table) (fuel : Nat) (store : KVStore) :
    Command → List CompactionCall
  | .put key s => store.putCalls pops fuel key s
  | .get _ => []
  | .del key =>
      if (store.get key).1 ≠ .empty then (store.get key).2.putCalls pops fuel key .del else []

end KVStore

/-! ## Executable runs -/

/-- The order of a stable sort. -/
def sortPops (tables : List Table) : List Table :=
  tables.insertionSort fun first second => first.rank ≤ second.rank

theorem pops_sortPops : Pops sortPops := by
  intro tables
  have : IsTrans Table fun first second => first.rank ≤ second.rank :=
    ⟨fun _ _ _ => le_trans⟩
  have : Std.Total fun first second : Table => first.rank ≤ second.rank :=
    ⟨fun first second => le_total first.rank second.rank⟩
  exact ⟨tables.perm_insertionSort _, tables.pairwise_insertionSort _⟩

/-- A value of 40 MB, of which a table holds one. -/
def wide : Str :=
  .replicate 40000000 (by decide) 1

/-- A value of one byte. -/
def narrow : Str :=
  .replicate 1 (by decide) 2

/-- Puts whose first compaction fills level 1, with a new version of a key there after it.
The next put that flushes merges both levels. -/
def versionedPuts : List Command :=
  ([7, 3, 5, 1, 9, 2].map fun key => .put key wide) ++
    [.put 5 narrow, .put 6 wide, .put 8 wide]

/-- A command with that order and enough fuel for small runs. -/
def Command.invoke (command : Command) : Invocation :=
  ⟨command, sortPops, pops_sortPops, 20⟩

namespace KVStore

/-- The state after an invocation, if it returns. -/
def invoke (store : KVStore) (invocation : Invocation) : Option KVStore :=
  (store.exec invocation.pops invocation.fuel invocation.command).toOption.map Prod.snd

theorem step_of_invoke {store store' : KVStore} {invocation : Invocation}
    (invoked : store.invoke invocation = some store') :
    system.Step store invocation store' := by
  obtain ⟨⟨reply, next⟩, returned, rfl⟩ := Option.map_eq_some_iff.mp invoked
  exact ⟨reply, Outcome.eq_ok_of_toOption returned⟩

end KVStore

end ZnsLsm.Store
