import ZnsLsm.Store.Commands

/-!
# The stages of a command

A put that flushes goes through stages: after the flush it may merge one level after
the other, and at last it enters its key into the memtable.  `stages` is the store
with these stages as its steps.  Every state of the store is one between two commands
there, and every compaction starts at a stage that a run reaches, so an invariant is
proved once for each kind of step.
-/

namespace ZnsLsm.Store

open ZnsLsm.Outcome ZnsLsm.Transition
open ZnsLsm.Pool (sstableSize)

/-- Where a command stands. -/
inductive Stage
  /-- Between two commands. -/
  | idle
  /-- After the flush. -/
  | flushed (key : Nat) (s : Str)
  /-- Before `compactionForLevel(level)`. -/
  | merging (level key : Nat) (s : Str)
  /-- Before `memTable->put`. -/
  | settled (key : Nat) (s : Str)

inductive Action
  | write (key : Nat) (s : Str)
  | flush (key : Nat) (s : Str)
  | skip
  | descend
  | merge (pops : List Table → List Table)
  | stop
  | insert
  | get (key : Nat)

namespace KVStore

def insert (store : KVStore) (key : Nat) (s : Str) : KVStore :=
  { store with memTable := store.memTable.put key s }

/-- The end of the recursion. -/
def stop (store : KVStore) : KVStore :=
  { store with
    memoryPool := .tryReset :: store.memoryPool
    levelNum := Function.update store.levelNum 0 0 }

/-- The level above holds more tables than it may. -/
def Overfull (store : KVStore) (level : Nat) : Prop :=
  level = 1 ∨ upperNum (level - 1) < (store.ssTable (level - 1)).length

inductive StageStep : Stage × KVStore → Action → Stage × KVStore → Prop
  | write {store : KVStore} {key : Nat} {s : Str} :
      (store.charged key s).memory ≤ sstableSize →
        StageStep (.idle, store) (.write key s)
          (.idle, insert { store with memTable := store.charged key s } key s)
  | flush {store flushed : KVStore} {key : Nat} {s : Str} :
      sstableSize < (store.charged key s).memory →
        store.flush (store.charged key s) = .ok flushed →
          StageStep (.idle, store) (.flush key s)
            (.flushed key s, flushed.recharge (store.memTable.get key) s)
  | skip {store : KVStore} {key : Nat} {s : Str} :
      store.levelNum 0 ≤ level0 →
        StageStep (.flushed key s, store) .skip (.settled key s, store)
  | descend {store : KVStore} {key : Nat} {s : Str} :
      level0 < store.levelNum 0 →
        StageStep (.flushed key s, store) .descend (.merging 1 key s, store)
  | merge {pops : List Table → List Table} {store store' : KVStore} {level key : Nat} {s : Str} :
      Pops pops → store.Overfull level → store.compactLevel pops level = .ok store' →
        StageStep (.merging level key s, store) (.merge pops) (.merging (level + 1) key s, store')
  | stop {store : KVStore} {level key : Nat} {s : Str} :
      ¬store.Overfull level →
        StageStep (.merging level key s, store) .stop (.settled key s, store.stop)
  | insert {store : KVStore} {key : Nat} {s : Str} :
      StageStep (.settled key s, store) .insert (.idle, store.insert key s)
  | get {store : KVStore} {key : Nat} :
      StageStep (.idle, store) (.get key) (.idle, (store.get key).2)

def stages : System (Stage × KVStore) Action where
  Init state := state = (.idle, new)
  Step := StageStep

/-! ## Conditions on the steps -/

/-- A condition on the puts of a run and one on its compactions. -/
structure Guard where
  puts : KVStore → Nat → Str → Prop
  merges : CompactionCall → Prop

/-- No condition. -/
def Guard.none : Guard where
  puts _ _ _ := True
  merges _ := True

/-- The condition on the stages. -/
def Guard.stage (guard : Guard) : Stage × KVStore → Action → Prop
  | (_, store), .write key s => guard.puts store key s
  | (_, store), .flush key s => guard.puts store key s
  | (.merging level _ _, store), .merge pops => guard.merges ⟨pops, store, level⟩
  | _, _ => True

/-- The condition on the commands. -/
def Guard.command (guard : Guard) (store : KVStore) (invocation : Invocation) : Prop :=
  (match invocation.command with
    | .put key s => guard.puts store key s
    | .get _ => True
    | .del key => (store.get key).1 ≠ .empty → guard.puts (store.get key).2 key .del) ∧
  ∀ call ∈ store.calls invocation.pops invocation.fuel invocation.command, guard.merges call

instance (guard : Guard) [∀ store key s, Decidable (guard.puts store key s)]
    [∀ call, Decidable (guard.merges call)] (store : KVStore) :
    (invocation : Invocation) → Decidable (guard.command store invocation)
  | ⟨.put _ _, _, _, _⟩ => inferInstanceAs (Decidable (_ ∧ _))
  | ⟨.get _, _, _, _⟩ => inferInstanceAs (Decidable (True ∧ _))
  | ⟨.del _, _, _, _⟩ => inferInstanceAs (Decidable ((_ → _) ∧ _))

instance (store : KVStore) (key : Nat) (s : Str) : Decidable (Guard.none.puts store key s) :=
  inferInstanceAs (Decidable True)

instance (call : CompactionCall) : Decidable (Guard.none.merges call) :=
  inferInstanceAs (Decidable True)

variable {guard : Guard}

/-- The runs whose steps meet a condition. -/
abbrev Runs (guard : Guard) (store : KVStore) : Prop :=
  (system.guarded guard.command).Reachable store

/-- The stages that runs reach whose steps meet a condition. -/
abbrev StageRuns (guard : Guard) (stage : Stage) (store : KVStore) : Prop :=
  (stages.guarded guard.stage).Reachable (stage, store)

/-- Run commands on a new store as long as they are allowed and return. -/
def run (guard : Guard) [∀ store key s, Decidable (guard.puts store key s)]
    [∀ call, Decidable (guard.merges call)] (commands : List Command) : Option KVStore :=
  System.run invoke guard.command new (commands.map Command.invoke)

variable {pops : List Table → List Table} {store store' : KVStore}

theorem runs_of_run [∀ store key s, Decidable (guard.puts store key s)]
    [∀ call, Decidable (guard.merges call)] {commands : List Command}
    (ran : run guard commands = some store) : Runs guard store :=
  System.reachable_of_run step_of_invoke rfl ran

theorem stageRuns_step {stage stage' : Stage} {action : Action}
    (step : StageStep (stage, store) action (stage', store'))
    (allowed : guard.stage (stage, store) action) (reached : StageRuns guard stage store) :
    StageRuns guard stage' store' :=
  reached.step ⟨allowed, step⟩

/-! ## Commands go through the stages -/

theorem overfull_iff {level : Nat} :
    store.Overfull level ↔
      ¬(level ≠ 1 ∧ (store.ssTable (level - 1)).length ≤ upperNum (level - 1)) := by
  rw [Overfull, Classical.not_and_iff_not_or_not, not_not, Nat.not_le]

/-- The cascade goes through merging stages, as long as the compactions are allowed. -/
theorem stages_of_cascade (valid : Pops pops) {fuel level key : Nat} {s : Str}
    (reached : StageRuns guard (.merging level key s) store)
    (allowed : ∀ call ∈ cascadeCalls pops fuel level store, guard.merges call) :
    (∀ call ∈ cascadeCalls pops fuel level store, call.pops = pops ∧
        StageRuns guard (.merging call.level key s) call.store ∧ call.store.Overfull call.level) ∧
      ∀ store', compactionForLevel pops fuel level store = .ok store' →
        StageRuns guard (.settled key s)
          { store' with levelNum := Function.update store'.levelNum 0 0 } := by
  induction fuel generalizing level store with
  | zero =>
      constructor
      · intro call mem
        cases mem
      · intro store' ok
        cases ok
  | succ fuel ih =>
      rw [cascadeCalls] at allowed ⊢
      rw [compactionForLevel]
      split
      · rename_i room
        rw [if_pos room] at allowed
        constructor
        · intro call mem
          cases mem
        · intro store' ok
          cases ok
          exact stageRuns_step (.stop fun overfull => overfull_iff.mp overfull room) trivial reached
      · rename_i full
        rw [if_neg full] at allowed
        have overfull := overfull_iff.mpr full
        have here : guard.merges ⟨pops, store, level⟩ := allowed _ List.mem_cons_self
        cases merged : store.compactLevel pops level with
        | error fault =>
            constructor
            · intro call mem
              obtain rfl := List.mem_singleton.mp mem
              exact ⟨rfl, reached, overfull⟩
            · intro store' ok
              cases ok
        | ok next =>
            rw [merged] at allowed
            have reached' : StageRuns guard (.merging (level + 1) key s) next :=
              stageRuns_step (.merge valid overfull merged) here reached
            obtain ⟨later, ends⟩ := ih reached' fun call mem =>
              allowed call (List.mem_cons_of_mem _ mem)
            constructor
            · intro call mem
              rcases List.mem_cons.mp mem with rfl | mem
              · exact ⟨rfl, reached, overfull⟩
              · exact later call mem
            · exact ends

/-- A put goes through the stages. -/
theorem stages_of_put (valid : Pops pops) {fuel key : Nat} {s : Str}
    (reached : StageRuns guard .idle store) (puts : guard.puts store key s)
    (allowed : ∀ call ∈ store.putCalls pops fuel key s, guard.merges call) :
    (∀ call ∈ store.putCalls pops fuel key s, call.pops = pops ∧
        StageRuns guard (.merging call.level key s) call.store ∧ call.store.Overfull call.level) ∧
      ∀ store', store.put pops fuel key s = .ok store' → StageRuns guard .idle store' := by
  rw [putCalls] at allowed ⊢
  rw [put]
  change _ ∧ ∀ store', (if sstableSize < (store.charged key s).memory then _ else _) = _ → _
  split
  · rename_i large
    rw [if_pos large] at allowed
    change _ ∧ ∀ store', (store.flush (store.charged key s) >>= _) = _ → _
    cases flushed : store.flush (store.charged key s) with
    | error fault =>
        constructor
        · intro call mem
          cases mem
        · intro store' ok
          cases ok
    | ok next =>
        rw [flushed] at allowed
        have reached' : StageRuns guard (.flushed key s)
            (next.recharge (store.memTable.get key) s) :=
          stageRuns_step (.flush large flushed) puts reached
        change _ ∧ ∀ store', ((compact pops fuel (next.recharge (store.memTable.get key) s)) >>=
          fun store => Except.ok (store.insert key s)) = _ → _
        rw [compact]
        change _ ∧ ∀ store', ((if level0 < next.levelNum 0 then _ else _) >>= _) = _ → _
        dsimp only
        split
        · rename_i full
          dsimp only at allowed
          rw [if_pos full] at allowed
          have descended : StageRuns guard (.merging 1 key s)
              (next.recharge (store.memTable.get key) s) :=
            stageRuns_step (.descend full) trivial reached'
          obtain ⟨calls, ends⟩ := stages_of_cascade valid descended allowed
          refine ⟨calls, ?_⟩
          intro store' ok
          cases cascade : compactionForLevel pops fuel 1
              (next.recharge (store.memTable.get key) s) with
          | error fault =>
              rw [cascade] at ok
              cases ok
          | ok merged =>
              rw [cascade] at ok
              cases ok
              exact stageRuns_step .insert trivial (ends merged cascade)
        · rename_i room
          constructor
          · intro call mem
            cases mem
          · intro store' ok
            cases ok
            exact stageRuns_step .insert trivial
              (stageRuns_step (.skip (Nat.le_of_not_lt room)) trivial reached')
  · rename_i small
    constructor
    · intro call mem
      cases mem
    · intro store' ok
      cases ok
      exact stageRuns_step (.write (Nat.le_of_not_lt small)) puts reached

theorem stages_of_exec (valid : Pops pops) {fuel : Nat} {command : Command}
    (reached : StageRuns guard .idle store)
    (allowed : guard.command store ⟨command, pops, valid, fuel⟩) :
    (∀ call ∈ store.calls pops fuel command, call.pops = pops ∧ ∃ key s,
        StageRuns guard (.merging call.level key s) call.store ∧ call.store.Overfull call.level) ∧
      ∀ reply store', store.exec pops fuel command = .ok (reply, store') →
        StageRuns guard .idle store' := by
  cases command with
  | put key s =>
      obtain ⟨calls, ends⟩ := stages_of_put valid reached allowed.1 allowed.2
      refine ⟨fun call mem => ⟨(calls call mem).1, key, s, (calls call mem).2⟩, ?_⟩
      intro reply store' ok
      exact ends store' (exec_put_ok ok).2
  | get key =>
      constructor
      · intro call mem
        cases mem
      · intro reply store' ok
        cases ok
        exact stageRuns_step .get trivial reached
  | del key =>
      have asked : StageRuns guard .idle (store.get key).2 :=
        stageRuns_step .get trivial reached
      obtain ⟨puts, merges⟩ := allowed
      by_cases present : (store.get key).1 ≠ .empty
      · rw [calls, if_pos present] at merges ⊢
        obtain ⟨calls, ends⟩ := stages_of_put valid asked (puts present) merges
        refine ⟨fun call mem => ⟨(calls call mem).1, key, .del, (calls call mem).2⟩, ?_⟩
        intro reply store' ok
        rcases exec_del_ok ok with ⟨-, -, done⟩ | ⟨absent, -⟩
        · exact ends store' done
        · exact absurd present absent
      · rw [calls, if_neg present]
        constructor
        · intro call mem
          cases mem
        · intro reply store' ok
          rcases exec_del_ok ok with ⟨found, -⟩ | ⟨-, -, rfl⟩
          · exact absurd found present
          · exact asked

/-- Every state that a run reaches is one between two commands of a run of stages. -/
theorem stages_of_runs (reachable : Runs guard store) : StageRuns guard .idle store := by
  induction reachable with
  | init isInit =>
      cases isInit
      exact .init rfl
  | step _ step ih =>
      obtain ⟨allowed, reply, ok⟩ := step
      exact (stages_of_exec _ ih allowed).2 reply _ ok

theorem command_none (store : KVStore) (invocation : Invocation) :
    Guard.none.command store invocation := by
  refine ⟨?_, fun _ _ => trivial⟩
  split
  · exact trivial
  · exact trivial
  · exact fun _ => trivial

theorem stage_none (state : Stage × KVStore) (action : Action) :
    Guard.none.stage state action := by
  rw [Guard.stage.eq_def]
  split
  · exact trivial
  · exact trivial
  · exact trivial
  · exact trivial

/-- The stages of a run are stages of a run without a condition. -/
theorem stageRuns_none {stage : Stage} (reached : StageRuns guard stage store) :
    StageRuns .none stage store := by
  refine System.invariant_of_reachable
    (P := fun state => (stages.guarded Guard.none.stage).Reachable state) ?_ ?_ reached
  · exact fun _ isInit => .init isInit
  · exact fun _ _ _ before step => before.step ⟨stage_none _ _, step.2⟩

/-- Every run is one without a condition. -/
theorem runs_none (reachable : system.Reachable store) : Runs .none store := by
  induction reachable with
  | init isInit => exact .init isInit
  | step _ step ih => exact ih.step ⟨command_none _ _, step⟩

end KVStore

end ZnsLsm.Store
