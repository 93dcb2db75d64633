import ZnsLsm.Store.Refinement

/-!
# The test of the repository

`Correctness_test` puts and reads keys in four phases and counts the replies that are as
expected.  Its loops are unrolled into a list of lines, which the store then works off; as long
as the compactions of the run keep tables apart and in order, all of its phases pass, for every
number of keys whose values fit a table.
-/

namespace ZnsLsm.Store

open ZnsLsm.Transition

/-! ## Counting -/

/-- What `class Test` counts, and the lines that `phase` prints, newest first: the number of the
phase, the tests that passed and all tests. -/
structure Tester where
  nrTests : Nat
  nrPassedTests : Nat
  nrPhases : Nat
  printed : List (Nat × Nat × Nat)
  deriving DecidableEq

namespace Tester

def new : Tester := ⟨0, 0, 0, []⟩

/-- `expect`. -/
def expect (tester : Tester) (exp got : Str) : Tester :=
  { tester with
    nrTests := tester.nrTests + 1
    nrPassedTests := if exp = got then tester.nrPassedTests + 1 else tester.nrPassedTests }

/-- `phase`. -/
def phase (tester : Tester) : Tester where
  nrTests := 0
  nrPassedTests := 0
  nrPhases := tester.nrPhases + 1
  printed := (tester.nrPhases + 1, tester.nrPassedTests, tester.nrTests) :: tester.printed

/-- The counters after some more tests that pass. -/
def pass (tester : Tester) (count : Nat) : Tester :=
  { tester with
    nrTests := tester.nrTests + count
    nrPassedTests := tester.nrPassedTests + count }

end Tester

/-! ## The test -/

inductive TestLine
  /-- `store.put(key, s)`. -/
  | put (key : Nat) (s : Str)
  /-- `EXPECT(exp, store.get(key))`. -/
  | expect (exp : Str) (key : Nat)
  | phase

/-- `std::string(count, ch)`; no string of the test is longer than 2^63. -/
def letters (count : Nat) (ch : UInt8) : Str :=
  .replicate (count % 2 ^ 63) (Nat.mod_lt _ (by decide)) ch

/-- `for (i = first; i < bound; i += stride) body`. -/
def loop (first bound stride : Nat) (body : Nat → List TestLine) : List TestLine :=
  (List.range ((bound - first + (stride - 1)) / stride)).flatMap fun j => body (first + stride * j)

/-- `'s'`. -/
def charS : UInt8 := 115

/-- `'t'`. -/
def charT : UInt8 := 116

/-- `Correctness_test`, where `Max` is the number of keys. -/
def correctnessTest (max : Nat) : List TestLine :=
  loop 0 max 1 (fun i => [.put i (letters (i + 1) charS), .expect (letters (i + 1) charS) i]) ++
  .phase ::
  (loop 1 max 4 (fun i => [.put i (letters (i + 1) charT), .expect (letters i charS) (i - 1)]) ++
  .phase ::
  (loop 0 max 2 (fun i => [.expect (letters (i + 1) charS) i]) ++
  .phase ::
  (loop 1 max 4 (fun i => [.expect (letters (i + 1) charT) i]) ++ [.phase])))

/-! ## Running it -/

/-- How the compactions of a command hand out tables, and fuel for them. -/
structure Schedule where
  pops : List Table → List Table
  valid : Pops pops
  fuel : Nat

/-- The lines that are left, the store and the counters. -/
structure TestRun where
  rest : List TestLine
  store : KVStore
  tester : Tester

namespace TestRun

/-- One line; a `put` returns if the fuel lasts. -/
def next (run : TestRun) (schedule : Schedule) : Option TestRun :=
  match run.rest with
  | [] => none
  | .put key s :: rest =>
      (run.store.exec schedule.pops schedule.fuel (.put key s)).toOption.map fun result =>
        ⟨rest, result.2, run.tester⟩
  | .expect exp key :: rest =>
      some ⟨rest, (run.store.get key).2, run.tester.expect exp (run.store.get key).1⟩
  | .phase :: rest => some ⟨rest, run.store, run.tester.phase⟩

/-- The compactions of the next line. -/
def calls (run : TestRun) (schedule : Schedule) : List CompactionCall :=
  match run.rest with
  | .put key s :: _ => run.store.calls schedule.pops schedule.fuel (.put key s)
  | _ => []

/-- All runs of the test on a new store. -/
def system (max : Nat) : System TestRun Schedule where
  Init run := run = ⟨correctnessTest max, .new, .new⟩
  Step run schedule run' := run.next schedule = some run'

/-- The compactions of the line keep tables apart and newer tables above older ones. -/
def Orderly (run : TestRun) (schedule : Schedule) : Prop :=
  ∀ call ∈ run.calls schedule, KVStore.Apart call ∧ KVStore.Precedes call.store call.level

instance (run : TestRun) (schedule : Schedule) : Decidable (run.Orderly schedule) :=
  inferInstanceAs (Decidable (∀ call ∈ _, _ ∧ _))

end TestRun

/-! ## The test on a map -/

/-- The map after some lines. -/
def after (content : Content) : List TestLine → Content
  | [] => content
  | .put key s :: lines => after (Function.update content key (some s)) lines
  | .expect _ _ :: lines => after content lines
  | .phase :: lines => after content lines

/-- On a map, the replies are as expected, and what is put can be told from what stands for
nothing. -/
def Checks (content : Content) : List TestLine → Prop
  | [] => True
  | .put key s :: lines =>
      (Command.put key s).Plain ∧ Checks (Function.update content key (some s)) lines
  | .expect exp key :: lines => (content key).getD .empty = exp ∧ Checks content lines
  | .phase :: lines => Checks content lines

/-- The counters after some lines whose tests pass. -/
def Tester.ideal (tester : Tester) : List TestLine → Tester
  | [] => tester
  | .put _ _ :: lines => tester.ideal lines
  | .expect _ _ :: lines => (tester.pass 1).ideal lines
  | .phase :: lines => tester.phase.ideal lines

variable {content : Content} {lines lines' : List TestLine}

@[simp]
theorem after_append : after content (lines ++ lines') = after (after content lines) lines' := by
  induction lines generalizing content with
  | nil => rfl
  | cons line lines ih =>
      cases line with
      | put key s => exact ih
      | expect exp key => exact ih
      | phase => exact ih

@[simp]
theorem checks_append :
    Checks content (lines ++ lines') ↔
      Checks content lines ∧ Checks (after content lines) lines' := by
  induction lines generalizing content with
  | nil => exact ⟨fun checks => ⟨trivial, checks⟩, And.right⟩
  | cons line lines ih =>
      cases line with
      | put key s => exact (and_congr_right fun _ => ih).trans and_assoc.symm
      | expect exp key => exact (and_congr_right fun _ => ih).trans and_assoc.symm
      | phase => exact ih

@[simp]
theorem ideal_append (tester : Tester) :
    tester.ideal (lines ++ lines') = (tester.ideal lines).ideal lines' := by
  induction lines generalizing tester with
  | nil => rfl
  | cons line lines ih =>
      cases line with
      | put key s => exact ih tester
      | expect exp key => exact ih (tester.pass 1)
      | phase => exact ih tester.phase

variable {first bound stride : Nat} {body : Nat → List TestLine}

/-- The rule of a loop: `I j` holds of the map before round `j`. -/
theorem checks_loop (pos : 0 < stride) {I : Nat → Content → Prop} (start : I 0 content)
    (round : ∀ j content, first + stride * j < bound → I j content →
      Checks content (body (first + stride * j)) ∧
        I (j + 1) (after content (body (first + stride * j)))) :
    Checks content (loop first bound stride body) ∧
      I ((bound - first + (stride - 1)) / stride)
        (after content (loop first bound stride body)) := by
  have inside : ∀ j < (bound - first + (stride - 1)) / stride, first + stride * j < bound := by
    intro j lt
    have le := (Nat.le_div_iff_mul_le pos).mp lt
    rw [Nat.succ_mul, Nat.mul_comm] at le
    omega
  rw [loop]
  generalize (bound - first + (stride - 1)) / stride = count at inside ⊢
  induction count with
  | zero => exact ⟨trivial, start⟩
  | succ count ih =>
      obtain ⟨checks, holds⟩ := ih fun j lt => inside j (Nat.lt_succ_of_lt lt)
      rw [List.range_succ, List.flatMap_append, List.flatMap_singleton, checks_append, after_append]
      obtain ⟨checks', holds'⟩ := round count _ (inside count (Nat.lt_succ_self count)) holds
      exact ⟨⟨checks, checks'⟩, holds'⟩

/-- A loop with one test in its body. -/
theorem ideal_loop (one : ∀ tester i, Tester.ideal tester (body i) = tester.pass 1)
    (tester : Tester) : tester.ideal (loop first bound stride body) =
      tester.pass ((bound - first + (stride - 1)) / stride) := by
  rw [loop]
  generalize (bound - first + (stride - 1)) / stride = count
  induction count with
  | zero => rfl
  | succ count ih =>
      rw [List.range_succ, List.flatMap_append, List.flatMap_singleton, ideal_append, ih, one]
      simp only [Tester.pass, Nat.add_assoc]

/-! ## The values of the test -/

theorem letters_plain {key count : Nat} {ch : UInt8} (pos : 0 < count)
    (fits : initialSize + 13 + count ≤ Pool.sstableSize) (other : ch ≠ 126) :
    (Command.put key (letters count ch)).Plain := by
  have small : count % 2 ^ 63 = count := by
    apply Nat.mod_eq_of_lt
    have size : Pool.sstableSize < 2 ^ 63 := by decide
    omega
  have length : (letters count ch).size = count := small
  refine ⟨?_, ?_, ?_⟩
  · change initialSize + (4 + 8 + (letters count ch).size + 1) ≤ Pool.sstableSize
    omega
  · intro same
    rw [same] at length
    exact absurd length pos.ne
  · let start : Str → UInt8 := fun s => if inside : 0 < s.size then s.bytes ⟨0, inside⟩ else 0
    have here : start (letters count ch) = ch := dif_pos (length.symm ▸ pos)
    intro same
    rw [same] at here
    exact other here.symm

/-- What the test has put when the loop of its second phase is at round `j`. -/
def contentAt (max j : Nat) : Content := fun key =>
  if key < max then
    some (letters (key + 1) (if key % 4 = 1 ∧ key < 1 + 4 * j then charT else charS))
  else
    none

theorem contentAt_eq {max j key : Nat} (lt : key < max) (old : ¬(key % 4 = 1 ∧ key < 1 + 4 * j)) :
    contentAt max j key = some (letters (key + 1) charS) := by
  rw [contentAt, if_pos lt, if_neg old]

/-- The second put of a key. -/
theorem contentAt_succ {max j : Nat} (lt : 1 + 4 * j < max) :
    Function.update (contentAt max j) (1 + 4 * j) (some (letters (1 + 4 * j + 1) charT)) =
      contentAt max (j + 1) := by
  funext key
  by_cases same : key = 1 + 4 * j
  · rw [same, Function.update_self, contentAt, if_pos lt, if_pos (by omega)]
  · have iff : (key % 4 = 1 ∧ key < 1 + 4 * j) ↔ key % 4 = 1 ∧ key < 1 + 4 * (j + 1) := by omega
    rw [Function.update_of_ne same, contentAt, contentAt]
    simp only [iff]

/-- The first put of a key. -/
@[simp]
theorem contentAt_zero_succ (max : Nat) :
    Function.update (contentAt max 0) max (some (letters (max + 1) charS)) =
      contentAt (max + 1) 0 := by
  funext key
  by_cases same : key = max
  · rw [same, Function.update_self, contentAt_eq (Nat.lt_succ_self max) (by omega)]
  · rw [Function.update_of_ne same]
    by_cases lt : key < max
    · rw [contentAt_eq lt (by omega), contentAt_eq (Nat.lt_succ_of_lt lt) (by omega)]
    · rw [contentAt, contentAt, if_neg lt, if_neg (by omega)]

/-- The rounds of the second phase. -/
def quarter (max : Nat) : Nat := (max - 1 + (4 - 1)) / 4

/-- The test passes on a map. -/
theorem checks_correctnessTest {max : Nat} (fits : initialSize + 13 + max ≤ Pool.sstableSize) :
    Checks (fun _ => none) (correctnessTest max) := by
  have puts := @checks_loop (fun _ => none) 0 max 1
    (fun i => [.put i (letters (i + 1) charS), .expect (letters (i + 1) charS) i]) Nat.one_pos
    (fun j content => content = contentAt j 0) rfl (by
      rintro j content lt rfl
      rw [Nat.zero_add, Nat.one_mul] at lt ⊢
      have plain : (Command.put j (letters (j + 1) charS)).Plain :=
        letters_plain (Nat.succ_pos _) (by omega) (by decide)
      refine ⟨⟨plain, ?_, trivial⟩, contentAt_zero_succ j⟩
      rw [Function.update_self, Option.getD_some])
  have updates := @checks_loop (contentAt max 0) 1 max 4
    (fun i => [.put i (letters (i + 1) charT), .expect (letters i charS) (i - 1)]) (by decide)
    (fun j content => content = contentAt max j) rfl (by
      rintro j content lt rfl
      have plain : (Command.put (1 + 4 * j) (letters (1 + 4 * j + 1) charT)).Plain :=
        letters_plain (Nat.succ_pos _) (by omega) (by decide)
      refine ⟨⟨plain, ?_, trivial⟩, contentAt_succ lt⟩
      have before : 1 + 4 * j - 1 + 1 = 1 + 4 * j := by omega
      rw [Function.update_of_ne (by omega), contentAt_eq (by omega) (by omega), Option.getD_some,
        before])
  have evens := @checks_loop (contentAt max (quarter max)) 0 max 2
    (fun i => [.expect (letters (i + 1) charS) i]) (by decide)
    (fun _ content => content = contentAt max (quarter max)) rfl (by
      rintro j content lt rfl
      refine ⟨⟨?_, trivial⟩, rfl⟩
      rw [contentAt_eq lt (by omega), Option.getD_some])
  have odds := @checks_loop (contentAt max (quarter max)) 1 max 4
    (fun i => [.expect (letters (i + 1) charT) i]) (by decide)
    (fun _ content => content = contentAt max (quarter max)) rfl (by
      rintro j content lt rfl
      refine ⟨⟨?_, trivial⟩, rfl⟩
      have new : (1 + 4 * j) % 4 = 1 ∧ 1 + 4 * j < 1 + 4 * quarter max := by
        rw [quarter]
        omega
      rw [contentAt, if_pos lt, if_pos new, Option.getD_some])
  have all : (max - 0 + (1 - 1)) / 1 = max := by omega
  rw [correctnessTest, checks_append]
  refine ⟨puts.1, ?_⟩
  rw [puts.2, all]
  refine checks_append.mpr ⟨updates.1, ?_⟩
  rw [updates.2, ← quarter]
  refine checks_append.mpr ⟨evens.1, ?_⟩
  rw [evens.2]
  exact checks_append.mpr ⟨odds.1, trivial⟩

/-- What the test prints if all tests pass. -/
@[simp]
theorem ideal_correctnessTest (max : Nat) :
    Tester.new.ideal (correctnessTest max) =
      ⟨0, 0, 4, [(4, quarter max, quarter max), (3, (max + 1) / 2, (max + 1) / 2),
        (2, quarter max, quarter max), (1, max, max)]⟩ := by
  have all : (max - 0 + (1 - 1)) / 1 = max := by omega
  rw [correctnessTest, ideal_append, ideal_loop fun _ _ => rfl, all, Tester.ideal, ideal_append,
    ideal_loop fun _ _ => rfl, Tester.ideal, ideal_append, ideal_loop fun _ _ => rfl,
    Tester.ideal, ideal_append, ideal_loop fun _ _ => rfl]
  simp only [Tester.ideal, Tester.pass, Tester.phase, Tester.new, Nat.zero_add]
  rfl

/-! ## Time stamps of the test -/

def TestLine.isPut : TestLine → Bool
  | .put _ _ => true
  | _ => false

/-- A put takes at most one time stamp. -/
theorem timeStamp_put_le {pops : List Table → List Table} (valid : Pops pops) {fuel key : Nat}
    {s : Str} {store store' : KVStore} (reached : KVStore.StageRuns .none .idle store)
    (ok : store.put pops fuel key s = .ok store') :
    store'.memTable.timeStamp ≤ store.memTable.timeStamp + 1 := by
  by_cases large : Pool.sstableSize < (store.charged key s).memory
  · cases flushed : store.flush (store.charged key s) with
    | error fault =>
        rw [KVStore.put_of_error large flushed] at ok
        cases ok
    | ok next =>
        rw [KVStore.put_of_flushed large flushed] at ok
        have step := (KVStore.flush_ends _ _).of_ok flushed
        have reached' : KVStore.StageRuns .none (.flushed key s)
            (next.recharge (store.memTable.get key) s) :=
          KVStore.stageRuns_step (.flush large flushed) trivial reached
        cases compacts : KVStore.compact pops fuel
            (next.recharge (store.memTable.get key) s) with
        | error fault =>
            rw [compacts] at ok
            cases ok
        | ok merged =>
            rw [compacts] at ok
            cases ok
            have memTable := KVStore.memTable_compact valid reached' compacts
            change merged.memTable.timeStamp ≤ _
            rw [memTable]
            change next.memTable.timeStamp ≤ _
            rw [step.memTable]
            exact Nat.le_refl _
  · rw [KVStore.put_of_small large] at ok
    cases ok
    exact Nat.le_succ _

theorem countP_loop_le {first bound stride : Nat} {body : Nat → List TestLine}
    (one : ∀ i, (body i).countP TestLine.isPut ≤ 1) :
    (loop first bound stride body).countP TestLine.isPut ≤
      (bound - first + (stride - 1)) / stride := by
  rw [loop]
  generalize (bound - first + (stride - 1)) / stride = count
  induction count with
  | zero => exact Nat.le_refl _
  | succ count ih =>
      rw [List.range_succ, List.flatMap_append, List.flatMap_singleton, List.countP_append]
      exact Nat.add_le_add ih (one _)

/-- No phase puts a key twice. -/
theorem countP_correctnessTest_le (max : Nat) :
    (correctnessTest max).countP TestLine.isPut ≤ 4 * max + 4 := by
  have puts : (loop 0 max 1 fun i =>
      [.put i (letters (i + 1) charS), .expect (letters (i + 1) charS) i]).countP
        TestLine.isPut ≤ _ := countP_loop_le fun _ => Nat.le_refl 1
  have updates : (loop 1 max 4 fun i =>
      [.put i (letters (i + 1) charT), .expect (letters i charS) (i - 1)]).countP
        TestLine.isPut ≤ _ := countP_loop_le fun _ => Nat.le_refl 1
  have evens : (loop 0 max 2 fun i => [.expect (letters (i + 1) charS) i]).countP
      TestLine.isPut ≤ _ := countP_loop_le fun _ => Nat.zero_le 1
  have odds : (loop 1 max 4 fun i => [.expect (letters (i + 1) charT) i]).countP
      TestLine.isPut ≤ _ := countP_loop_le fun _ => Nat.zero_le 1
  have last : [TestLine.phase].countP TestLine.isPut = 0 := rfl
  have phase : ∀ lines : List TestLine,
      (TestLine.phase :: lines).countP TestLine.isPut = lines.countP TestLine.isPut :=
    fun lines => List.countP_cons_of_neg Bool.false_ne_true
  simp only [correctnessTest, List.countP_append, phase, List.countP_nil]
  omega

/-! ## Runs of the test -/

namespace TestRun

variable {max : Nat} {run run' : TestRun} {schedule : Schedule}

/-- The store has the content of a map on which the rest of the test passes. -/
structure Kept (max : Nat) (run : TestRun) : Prop where
  stages : KVStore.StageRuns .faithful .idle run.store
  checks : Checks run.store.view run.rest
  ideal : run.tester.ideal run.rest = Tester.new.ideal (correctnessTest max)
  equal : run.tester.nrPassedTests = run.tester.nrTests
  printed : ∀ line ∈ run.tester.printed, line.2.1 = line.2.2
  few : run.store.memTable.timeStamp + run.rest.countP TestLine.isPut < 2 ^ 32

theorem kept_init (fits : initialSize + 13 + max ≤ Pool.sstableSize) :
    Kept max ⟨correctnessTest max, .new, .new⟩ where
  stages := .init rfl
  checks := checks_correctnessTest fits
  ideal := rfl
  equal := rfl
  printed := List.forall_mem_nil _
  few := by
    have puts := countP_correctnessTest_le max
    have size : 4 * Pool.sstableSize + 4 < 2 ^ 32 := by decide
    have stamp : KVStore.new.memTable.timeStamp = 0 := rfl
    dsimp only
    omega

theorem Kept.put {key : Nat} {s : Str} {rest : List TestLine} {store : KVStore}
    {tester : Tester} (kept : Kept max ⟨.put key s :: rest, store, tester⟩)
    (orderly : Orderly ⟨.put key s :: rest, store, tester⟩ schedule) {reply : Reply}
    {store' : KVStore}
    (ok : store.exec schedule.pops schedule.fuel (.put key s) = .ok (reply, store')) :
    Kept max ⟨rest, store', tester⟩ := by
  obtain ⟨plain, checks⟩ := kept.checks
  have few : store.memTable.timeStamp + (rest.countP TestLine.isPut + 1) < 2 ^ 32 := by
    have bound := kept.few
    rwa [List.countP_cons_of_pos rfl] at bound
  have refines := (KVStore.exec_refines schedule.valid plain kept.stages orderly ok).1
    (lt_of_le_of_lt (Nat.le_add_right _ _) few)
  have allowed := KVStore.command_faithful plain schedule.valid orderly
  have later : store'.memTable.timeStamp ≤ store.memTable.timeStamp + 1 :=
    timeStamp_put_le schedule.valid (KVStore.stageRuns_none kept.stages) (KVStore.exec_put_ok ok).2
  refine ⟨(KVStore.stages_of_exec schedule.valid kept.stages allowed).2 reply store' ok, ?_,
    kept.ideal, kept.equal, kept.printed, ?_⟩
  · have view : Function.update store.view key (some s) = store'.view :=
      congrArg Prod.snd refines
    rw [← view]
    exact checks
  · dsimp only
    omega

theorem Kept.expect {key : Nat} {exp : Str} {rest : List TestLine} {store : KVStore}
    {tester : Tester} (kept : Kept max ⟨.expect exp key :: rest, store, tester⟩) :
    Kept max ⟨rest, (store.get key).2, tester.expect exp (store.get key).1⟩ := by
  obtain ⟨reads, checks⟩ := kept.checks
  have sound := (KVStore.stageSound_of_stageRuns kept.stages).sound
  have got : exp = (store.get key).1 := by
    rw [KVStore.get_fst sound (KVStore.filled_of_stageRuns kept.stages), ← reads]
  have passed : tester.expect exp (store.get key).1 = tester.pass 1 := by
    rw [Tester.expect, if_pos got]
    rfl
  rw [passed]
  refine ⟨KVStore.stageRuns_step .get trivial kept.stages, ?_, kept.ideal,
    congrArg Nat.succ kept.equal, kept.printed, ?_⟩
  · have view : (store.get key).2.view = store.view := funext fun other => by
      rw [KVStore.view_get]
    rw [view]
    exact checks
  · dsimp only
    rw [KVStore.timeStamp_get]
    exact kept.few

theorem Kept.phase {rest : List TestLine} {store : KVStore} {tester : Tester}
    (kept : Kept max ⟨.phase :: rest, store, tester⟩) : Kept max ⟨rest, store, tester.phase⟩ where
  stages := kept.stages
  checks := kept.checks
  ideal := kept.ideal
  equal := rfl
  printed := List.forall_mem_cons.mpr ⟨kept.equal, kept.printed⟩
  few := kept.few

theorem Kept.next (kept : Kept max run) (orderly : run.Orderly schedule)
    (stepped : run.next schedule = some run') : Kept max run' := by
  obtain ⟨rest, store, tester⟩ := run
  cases rest with
  | nil => cases stepped
  | cons line rest =>
      cases line with
      | put key s =>
          obtain ⟨⟨reply, store'⟩, returned, rfl⟩ := Option.map_eq_some_iff.mp stepped
          exact kept.put orderly (Outcome.eq_ok_of_toOption returned)
      | expect exp key =>
          cases stepped
          exact kept.expect
      | phase =>
          cases stepped
          exact kept.phase

theorem kept_of_reachable (fits : initialSize + 13 + max ≤ Pool.sstableSize)
    (reachable : ((system max).guarded Orderly).Reachable run) : Kept max run := by
  refine System.invariant_of_reachable (P := Kept max) ?_ ?_ reachable
  · rintro _ rfl
    exact kept_init fits
  · exact fun _ _ _ kept step => kept.next step.1 step.2

/-- No test has failed; at the end, every phase has printed how many tests there were, and until
then the test goes on. -/
structure Passes (max : Nat) (run : TestRun) : Prop where
  passing : run.tester.nrPassedTests = run.tester.nrTests
  printed : ∀ line ∈ run.tester.printed, line.2.1 = line.2.2
  finished : run.rest = [] → run.tester =
    ⟨0, 0, 4, [(4, quarter max, quarter max), (3, (max + 1) / 2, (max + 1) / 2),
      (2, quarter max, quarter max), (1, max, max)]⟩
  proceeds : run.rest ≠ [] → ∀ pops (valid : Pops pops), ∃ bound, ∀ fuel ≥ bound,
    run.Orderly ⟨pops, valid, fuel⟩ → ∃ run', run.next ⟨pops, valid, fuel⟩ = some run' ∧
      run.rest.length = run'.rest.length + 1

/-- In every run of the test whose compactions keep tables apart and newer ones above, all
phases pass. -/
theorem passes_of_reachable (fits : initialSize + 13 + max ≤ Pool.sstableSize)
    (reachable : ((system max).guarded Orderly).Reachable run) : run.Passes max := by
  have kept := kept_of_reachable fits reachable
  refine ⟨kept.equal, kept.printed, ?_, ?_⟩
  · intro finished
    have ideal := kept.ideal
    rw [finished, ideal_correctnessTest] at ideal
    exact ideal
  · obtain ⟨rest, store, tester⟩ := run
    intro more pops valid
    cases rest with
    | nil => exact absurd rfl more
    | cons line rest =>
        cases line with
        | put key s =>
            have plain := kept.checks.1
            obtain ⟨bound, returns⟩ :=
              KVStore.exec_returns And.left valid kept.stages plain.fits
            refine ⟨bound, fun fuel ge orderly => ?_⟩
            obtain ⟨reply, store', ok, -⟩ :=
              returns fuel ge (KVStore.command_faithful plain valid orderly)
            refine ⟨⟨rest, store', tester⟩, ?_, rfl⟩
            rw [next]
            dsimp only
            rw [ok]
            rfl
        | expect exp key => exact ⟨0, fun _ _ _ => ⟨_, rfl, rfl⟩⟩
        | phase => exact ⟨0, fun _ _ _ => ⟨_, rfl, rfl⟩⟩

/-- The values of the test fit for its own number of keys. -/
example : initialSize + 13 + 1024 * 100 ≤ Pool.sstableSize := by decide

/-- The test with three keys, to its end. -/
theorem passes_of_three : ∃ run : TestRun, run.rest = [] ∧
    run.tester.printed = [(4, 1, 1), (3, 2, 2), (2, 1, 1), (1, 3, 3)] ∧ run.Passes 3 := by
  obtain ⟨run, ran, ended⟩ := Option.map_eq_some_iff.mp
    (show (System.run next Orderly ⟨correctnessTest 3, .new, .new⟩
        (List.replicate 15 ⟨sortPops, pops_sortPops, 20⟩)).map (fun run => run.rest.length) =
          some 0 by decide +kernel)
  have finished := List.eq_nil_of_length_eq_zero ended
  have passes : run.Passes 3 :=
    passes_of_reachable (by decide) (System.reachable_of_run id rfl ran)
  refine ⟨run, finished, ?_, passes⟩
  rw [passes.finished finished]
  rfl

end TestRun

end ZnsLsm.Store
