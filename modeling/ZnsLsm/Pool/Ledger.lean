import Mathlib.Order.Lattice.Nat
import ZnsLsm.Pool.Bookkeeping

/-!
# A ledger of requests

Which tables a manager stores, and for which writes it may still have to wait, follows
from the requests that it has served.  The ledger reads both off a record of requests,
newest first, and says which requests are in order: no table is written twice, read or
deleted without being stored, or deleted before its write was waited for.
-/

namespace ZnsLsm.Pool

open ZnsLsm.Outcome ZnsLsm.Transition

namespace Ledger

/-! ## Reading the record -/

/-- The tables that are written and not deleted. -/
def liveIn : List Op → Set TableId
  | [] => ∅
  | .writeTable level num :: log => insert (level, num) (liveIn log)
  | .deleteTable level num :: log => liveIn log \ {(level, num)}
  | _ :: log => liveIn log

/-- The tables that were not read since they were written. -/
def pendingIn : List Op → Set TableId
  | [] => ∅
  | .writeTable level num :: log => insert (level, num) (pendingIn log)
  | .getValue level num _ _ :: log => pendingIn log \ {(level, num)}
  | .readTable level num _ _ :: log => pendingIn log \ {(level, num)}
  | _ :: log => pendingIn log

/-- The number of levels of the page tables. -/
def levelsIn : List Op → Nat
  | [] => 1
  | .writeTable level _ :: log =>
      if levelsIn log < level + 1 then levelsIn log + 1 else levelsIn log
  | _ :: log => levelsIn log

/-- The request is in order after the record. -/
def InOrder (log : List Op) : Op → Prop
  | .writeTable level num => (level, num) ∉ liveIn log ∧ level ≤ levelsIn log
  | .getValue level num _ _ => (level, num) ∈ liveIn log
  | .readTable level num _ _ => (level, num) ∈ liveIn log
  | .deleteTable level num => (level, num) ∈ liveIn log ∧ (level, num) ∉ pendingIn log
  | .tryReset => True
  | .evictZone => True

/-- Every request of the record was in order at its time. -/
def Clean : List Op → Prop
  | [] => True
  | op :: log => InOrder log op ∧ Clean log

theorem Clean.of_append {after log : List Op} (clean : Clean (after ++ log)) : Clean log := by
  induction after with
  | nil => exact clean
  | cons op after ih => exact ih clean.2

/-- Stored tables are on the levels of the page tables. -/
theorem Clean.lt_levelsIn {log : List Op} (clean : Clean log) {t : TableId}
    (live : t ∈ liveIn log) : t.1 < levelsIn log := by
  induction log with
  | nil => cases live
  | cons op log ih =>
      cases op with
      | writeTable level num =>
          rw [levelsIn]
          rcases Set.mem_insert_iff.mp live with rfl | old
          · have le := clean.1.2
            split
            · omega
            · omega
          · have less := ih clean.2 old
            split
            · omega
            · exact less
      | deleteTable level num => exact ih clean.2 live.1
      | getValue level num offset length => exact ih clean.2 live
      | readTable level num offset length => exact ih clean.2 live
      | tryReset => exact ih clean.2 live
      | evictZone => exact ih clean.2 live

/-! ## Requests in a row -/

/-- The request reads a table. -/
def Reads (t : TableId) : Op → Prop
  | .getValue level num _ _ => t = (level, num)
  | .readTable level num _ _ => t = (level, num)
  | _ => False

/-- Reads of stored tables only wait. -/
theorem reads_append {asked log : List Op} (clean : Clean log)
    (reads : ∀ op ∈ asked, ∃ t ∈ liveIn log, Reads t op) :
    Clean (asked ++ log) ∧ liveIn (asked ++ log) = liveIn log ∧
      levelsIn (asked ++ log) = levelsIn log ∧
        ∀ op ∈ asked, ∀ t, Reads t op → t ∉ pendingIn (asked ++ log) := by
  induction asked with
  | nil => exact ⟨clean, rfl, rfl, fun _ mem => absurd mem List.not_mem_nil⟩
  | cons op asked ih =>
      obtain ⟨clean', live, levels, waited⟩ :=
        ih fun op mem => reads op (List.mem_cons_of_mem _ mem)
      obtain ⟨t, stored, isRead⟩ := reads op List.mem_cons_self
      rw [← live] at stored
      cases op with
      | getValue level num offset length =>
          cases isRead
          refine ⟨⟨stored, clean'⟩, live, levels, ?_⟩
          rintro other mem t isRead ⟨pending, ne⟩
          rcases List.mem_cons.mp mem with rfl | later
          · exact ne isRead
          · exact waited other later t isRead pending
      | readTable level num offset length =>
          cases isRead
          refine ⟨⟨stored, clean'⟩, live, levels, ?_⟩
          rintro other mem t isRead ⟨pending, ne⟩
          rcases List.mem_cons.mp mem with rfl | later
          · exact ne isRead
          · exact waited other later t isRead pending
      | writeTable level num => cases isRead
      | deleteTable level num => cases isRead
      | tryReset => cases isRead
      | evictZone => cases isRead

/-- Writes of distinct new tables to one level. -/
theorem writes_append {log : List Op} (clean : Clean log) {level : Nat}
    (next : level ≤ levelsIn log) {nums : List Nat} (nodup : nums.Nodup)
    (fresh : ∀ num ∈ nums, (level, num) ∉ liveIn log) :
    Clean (nums.map (Op.writeTable level) ++ log) ∧
      (∀ t, t ∈ liveIn (nums.map (Op.writeTable level) ++ log) ↔
        (∃ num ∈ nums, t = (level, num)) ∨ t ∈ liveIn log) ∧
      (∀ t ∈ pendingIn (nums.map (Op.writeTable level) ++ log),
        (∃ num ∈ nums, t = (level, num)) ∨ t ∈ pendingIn log) ∧
      level ≤ levelsIn (nums.map (Op.writeTable level) ++ log) := by
  induction nums with
  | nil => simp [clean, next]
  | cons num nums ih =>
      obtain ⟨notMem, nodup⟩ := List.nodup_cons.mp nodup
      obtain ⟨clean', live, pending, next'⟩ :=
        ih nodup fun other mem => fresh other (List.mem_cons_of_mem _ mem)
      refine ⟨⟨⟨?_, next'⟩, clean'⟩, ?_, ?_, ?_⟩
      · change (level, num) ∉ liveIn (nums.map (Op.writeTable level) ++ log)
        rw [live]
        rintro (⟨other, mem, same⟩ | old)
        · cases same
          exact notMem mem
        · exact fresh num List.mem_cons_self old
      · intro t
        change t ∈ insert (level, num) (liveIn (nums.map (Op.writeTable level) ++ log)) ↔ _
        rw [Set.mem_insert_iff, live, ← or_assoc]
        simp
      · intro t mem
        rcases Set.mem_insert_iff.mp mem with rfl | later
        · exact .inl ⟨num, List.mem_cons_self, rfl⟩
        · refine (pending t later).imp_left ?_
          rintro ⟨other, mem, same⟩
          exact ⟨other, List.mem_cons_of_mem _ mem, same⟩
      · change level ≤ if levelsIn (nums.map (Op.writeTable level) ++ log) < level + 1 then
          levelsIn (nums.map (Op.writeTable level) ++ log) + 1
          else levelsIn (nums.map (Op.writeTable level) ++ log)
        split
        · omega
        · exact next'

/-- Deletions of distinct stored tables whose writes were waited for. -/
theorem deletes_append {log : List Op} (clean : Clean log) {tables : List TableId}
    (nodup : tables.Nodup) (stored : ∀ t ∈ tables, t ∈ liveIn log)
    (waited : ∀ t ∈ tables, t ∉ pendingIn log) :
    Clean (tables.map (fun t => Op.deleteTable t.1 t.2) ++ log) ∧
      (∀ t, t ∈ liveIn (tables.map (fun t => Op.deleteTable t.1 t.2) ++ log) ↔
        t ∈ liveIn log ∧ t ∉ tables) ∧
      pendingIn (tables.map (fun t => Op.deleteTable t.1 t.2) ++ log) = pendingIn log := by
  induction tables with
  | nil => simp [clean]
  | cons first tables ih =>
      obtain ⟨notMem, nodup⟩ := List.nodup_cons.mp nodup
      obtain ⟨clean', live, pending⟩ := ih nodup
        (fun t mem => stored t (List.mem_cons_of_mem _ mem))
        (fun t mem => waited t (List.mem_cons_of_mem _ mem))
      refine ⟨⟨⟨?_, ?_⟩, clean'⟩, ?_, pending⟩
      · exact (live first).mpr ⟨stored first List.mem_cons_self, notMem⟩
      · change first ∉ pendingIn (tables.map (fun t => Op.deleteTable t.1 t.2) ++ log)
        rw [pending]
        exact waited first List.mem_cons_self
      · intro t
        change t ∈ liveIn (tables.map (fun t => Op.deleteTable t.1 t.2) ++ log) \ {first} ↔ _
        rw [Set.mem_sdiff, live, Set.mem_singleton_iff, List.mem_cons, not_or, and_assoc]
        exact and_congr_right fun _ => and_comm

/-- Stored tables are read, new ones written, and those that were read deleted. -/
theorem exchange_append {asked log : List Op} (clean : Clean log) {old : List TableId}
    (distinct : old.Nodup) (stored : ∀ t ∈ old, t ∈ liveIn log)
    (reads : ∀ op ∈ asked, ∃ t ∈ old, Reads t op) (read : ∀ t ∈ old, ∃ op ∈ asked, Reads t op)
    {level : Nat} (next : level ≤ levelsIn log) {nums : List Nat} (nodup : nums.Nodup)
    (fresh : ∀ num ∈ nums, (level, num) ∉ liveIn log) :
    Clean (old.map (fun t => Op.deleteTable t.1 t.2) ++
        (nums.map (Op.writeTable level) ++ (asked ++ log))) ∧
      ∀ t, t ∈ liveIn (old.map (fun t => Op.deleteTable t.1 t.2) ++
          (nums.map (Op.writeTable level) ++ (asked ++ log))) ↔
        ((∃ num ∈ nums, t = (level, num)) ∨ t ∈ liveIn log) ∧ t ∉ old := by
  have readsLive : ∀ op ∈ asked, ∃ t ∈ liveIn log, Reads t op := by
    intro op mem
    obtain ⟨t, isOld, isRead⟩ := reads op mem
    exact ⟨t, stored t isOld, isRead⟩
  obtain ⟨clean', live, levels, waited⟩ := reads_append clean readsLive
  rw [← levels] at next
  rw [← live] at fresh
  obtain ⟨written, live', pending, -⟩ := writes_append clean' next nodup fresh
  rw [live] at fresh live'
  have storedStill : ∀ t ∈ old, t ∈ liveIn (nums.map (Op.writeTable level) ++ (asked ++ log)) :=
    fun t isOld => (live' t).mpr (.inr (stored t isOld))
  have waitedStill : ∀ t ∈ old,
      t ∉ pendingIn (nums.map (Op.writeTable level) ++ (asked ++ log)) := by
    intro t isOld isPending
    rcases pending t isPending with ⟨num, mem, rfl⟩ | before
    · exact fresh num mem (stored _ isOld)
    · obtain ⟨op, mem, isRead⟩ := read t isOld
      exact waited op mem t isRead before
  obtain ⟨deleted, live'', -⟩ := deletes_append written distinct storedStill waitedStill
  refine ⟨deleted, fun t => ?_⟩
  rw [live'', live']

end Ledger

namespace MemoryManager

variable {device : Device}

/-! ## Evictions only wait for writes -/

/-- The page tables have as many levels, and there are no further writes to wait for. -/
structure Waited (origin m : MemoryManager) : Prop where
  levels : m.levels = origin.levels
  complete : ∀ t, origin.completeTable t = none → m.completeTable t = none

theorem Waited.refl (m : MemoryManager) : m.Waited m :=
  ⟨rfl, fun _ => id⟩

variable {origin m : MemoryManager}

/-- Nothing but these two fields matters. -/
theorem Waited.of_eq (waited : origin.Waited m) {m' : MemoryManager}
    (levels : m'.levels = m.levels) (complete : m'.completeTable = m.completeTable) :
    origin.Waited m' where
  levels := levels.trans waited.levels
  complete := complete ▸ waited.complete

theorem Waited.visit (waited : origin.Waited m) (table : Nat) :
    origin.Waited (m.visit table) where
  levels := waited.levels
  complete t none := by
    change Function.update m.completeTable (m.tableAt table) _ t = _
    by_cases same : t = m.tableAt table
    · rw [same, Function.update_self]
    · rw [Function.update_of_ne same]
      exact waited.complete t none

theorem Waited.fillZone (waited : origin.Waited m) (endPtr : Nat) (rest : List Nat)
    (table i : Nat) : origin.Waited (MemoryManager.fillZone endPtr rest table i m).2 := by
  induction rest generalizing table i m with
  | nil => exact waited
  | cons source rest ih =>
      rw [MemoryManager.fillZone]
      split
      · apply ih
        rw [moveTable_eq]
        exact waited.of_eq rfl rfl
      · exact waited

theorem Waited.relocate (waited : origin.Waited m) (rewrite : List Nat) (fuel i prev : Nat) :
    Ends origin.Waited (fun _ => True) (MemoryManager.relocate rewrite fuel i prev m) := by
  induction fuel generalizing i prev m with
  | zero => exact trivial
  | succ fuel ih =>
      rw [MemoryManager.relocate]
      split
      · exact waited
      · split
        · exact trivial
        · cases got : m.emptyZone.get with
          | none => exact trivial
          | some pair =>
              rcases pair with ⟨toZone, pool⟩
              have taken : origin.Waited { m with emptyZone := pool } := waited.of_eq rfl rfl
              have filled := taken.fillZone (m.zoneMetas toZone).endPtr (rewrite.drop i)
                (m.zoneMetas toZone).writePtr i
              dsimp only
              split
              · apply ih
                exact filled.of_eq rfl rfl
              · apply ih
                exact filled.of_eq rfl rfl

theorem Waited.scanZone (waited : origin.Waited m) (zone : Nat) :
    origin.Waited (m.scanZone zone).2 := by
  obtain ⟨m', waited', scan⟩ : ∃ m', origin.Waited m' ∧
      ((m.scanZone zone).2 = m' ∨ (m.scanZone zone).2 = m'.zoneErr .readValidWrong) :=
    m.scanZone_rule (P := fun _ m' => origin.Waited m') (waited.of_eq rfl rfl)
      fun _ before => before.visit _
  rcases scan with same | reported
  · rwa [same]
  · rw [reported]
    exact waited'.of_eq rfl rfl

theorem Waited.resetZone (waited : origin.Waited m) (zone : Nat) (force : Bool) :
    Ends origin.Waited (fun _ => True) (m.resetZone device zone force) := by
  simp only [MemoryManager.resetZone]
  split
  · exact waited
  · generalize reportedEq : (if zone ∈ m.fullZone then m else m.zoneErr .notInFullQueue) = reported
    have waited' : origin.Waited reported := by
      rw [← reportedEq]
      split
      · exact waited
      · exact waited.of_eq rfl rfl
    split
    · split
      · exact trivial
      · exact waited'
    · split
      · split
        · exact ((waited'.scanZone zone).relocate _ _ _ _).bind fun _ _ emptied =>
            emptied.of_eq rfl rfl
        · exact waited'.of_eq rfl rfl
      · exact waited'

theorem evictable_waited (origin : MemoryManager) :
    Evictable device (fun _ => True) origin.Waited (fun _ => True) where
  reset waited _ := waited.resetZone _ _
  clear waited := waited.of_eq rfl rfl
  idle _ _ := trivial

/-- The eviction loop loses no table and starts no write. -/
theorem Books.evictLoop_waited (books : m.Books device none []) (roles : m.Roles device none)
    (iter : Finset Nat → List Nat) (fuel : Nat) :
    Ends
      (fun m' => ((m'.Roles device none ∧ m'.Books device none [] ∧ m.SameLive m') ∧
        m.Waited m') ∧ m'.emptyZone.empty = false)
      (fun _ => True) (MemoryManager.evictLoop device iter fuel m) := by
  refine (((evictable_books m).and (evictable_waited m)).evictLoop
    ⟨⟨roles, books, fun _ => Iff.rfl⟩, Waited.refl m⟩ fun _ _ => trivial).imp ?_
      fun _ _ => trivial
  rintro m' ⟨holds, enough⟩
  have zonesPos := device.zoneNum_pos
  exact ⟨holds, decide_eq_false (by omega)⟩

/-! ## One request -/

/-- What a request that returns does to the stored tables, the writes to wait for and the
levels. -/
structure Recorded (log : List Op) (m : MemoryManager) : Prop where
  live : ∀ t, m.Live t ↔ t ∈ Ledger.liveIn log
  pending : ∀ t, t ∉ Ledger.pendingIn log → m.completeTable t = none
  levels : m.levels = Ledger.levelsIn log

variable {log : List Op} {m' : MemoryManager}

theorem Recorded.allowed (recorded : m.Recorded log) {op : Op} (inOrder : Ledger.InOrder log op) :
    m.Allowed op := by
  cases op with
  | writeTable level num =>
      exact ⟨fun live => inOrder.1 ((recorded.live _).mp live), recorded.levels ▸ inOrder.2⟩
  | getValue level num offset length => exact (recorded.live _).mpr inOrder
  | readTable level num offset length => exact (recorded.live _).mpr inOrder
  | deleteTable level num => exact trivial
  | tryReset => exact trivial
  | evictZone => exact trivial

/-- Evictions do not change the record. -/
theorem Recorded.evicted (recorded : m.Recorded log) (same : m.SameLive m')
    (waited : m.Waited m') : m'.Recorded log where
  live t := (same t).trans (recorded.live t)
  pending t absent := waited.complete t (recorded.pending t absent)
  levels := waited.levels.trans recorded.levels

theorem Recorded.entered (recorded : m.Recorded log) (level num s : Nat) :
    (m.entered level num s).Recorded (.writeTable level num :: log) where
  live t := by
    change (Function.update m.mappingTable (level, num) (some s) t).isSome ↔ _
    rw [Ledger.liveIn, Set.mem_insert_iff]
    by_cases same : t = (level, num)
    · rw [same, Function.update_self]
      exact iff_of_true rfl (.inl rfl)
    · rw [Function.update_of_ne same, or_iff_right same]
      exact recorded.live t
  pending t absent := by
    rw [Ledger.pendingIn, Set.mem_insert_iff, not_or] at absent
    change Function.update m.completeTable (level, num) _ t = _
    rw [Function.update_of_ne absent.1]
    exact recorded.pending t absent.2
  levels := by
    change m.levelsWith level = _
    rw [levelsWith, recorded.levels]
    rfl

theorem Recorded.appendTable (recorded : m.Recorded log) (roles : m.Roles device none)
    (nonempty : m.emptyZone.empty = false) (level num : Nat) :
    Ends (fun m' => m'.Recorded (.writeTable level num :: log)) (fun _ => True)
      (m.appendTable level num) := by
  apply m.appendTable_ends roles.wf nonempty
  · intro full opened pool _
    apply Recorded.entered
    exact ⟨recorded.live, recorded.pending, recorded.levels⟩
  · exact fun _ _ _ => trivial

/-- Reading a stored table stores nothing else. -/
theorem Recorded.live_read (recorded : m.Recorded log) {level num : Nat}
    (live : (level, num) ∈ Ledger.liveIn log)
    (mapping : m'.mappingTable =
      Function.update m.mappingTable (level, num) (some (m.location (level, num))))
    (t : TableId) : m'.Live t ↔ t ∈ Ledger.liveIn log := by
  rw [Live, mapping, ((recorded.live _).mpr live).update_location]
  exact recorded.live t

/-- Reading a table waits for its write. -/
theorem Recorded.pending_read (recorded : m.Recorded log) {level num : Nat}
    (complete : m'.completeTable = Function.update m.completeTable (level, num) none)
    (t : TableId) (absent : t ∉ Ledger.pendingIn log \ {(level, num)}) :
    m'.completeTable t = none := by
  rw [complete]
  by_cases same : t = (level, num)
  · rw [same, Function.update_self]
  · rw [Function.update_of_ne same]
    exact recorded.pending t fun pending => absent ⟨pending, same⟩

theorem Recorded.drop (recorded : m.Recorded log) {level num : Nat} (s : Nat) :
    (m.dropTable device (level, num) s).Recorded (.deleteTable level num :: log) where
  live t := by
    change (Function.update m.mappingTable (level, num) none t).isSome ↔ _
    rw [Ledger.liveIn, Set.mem_sdiff, Set.mem_singleton_iff]
    by_cases same : t = (level, num)
    · rw [same, Function.update_self]
      exact iff_of_false (by simp) fun both => both.2 rfl
    · rw [Function.update_of_ne same, and_iff_left same]
      exact recorded.live t
  pending := recorded.pending
  levels := recorded.levels

/-- A request in order is recorded when it returns. -/
theorem Recorded.exec (recorded : m.Recorded log) (clean : Ledger.Clean log)
    (roles : m.Roles device none) (books : m.Books device none []) {op : Op}
    (inOrder : Ledger.InOrder log op) (iter : Finset Nat → List Nat) (fuel : Nat) :
    Ends (fun m' => m'.Recorded (op :: log)) (fun _ => True) (m.exec device iter fuel op) := by
  cases op with
  | writeTable level num =>
      refine (books.evictLoop_waited roles iter fuel).bind ?_
      rintro m₁ - ⟨⟨⟨roles', -, same⟩, waited⟩, nonempty⟩
      exact (recorded.evicted same waited).appendTable roles' nonempty level num
  | getValue level num offset length =>
      have known : level < m.levels := recorded.levels ▸ clean.lt_levelsIn inOrder
      rw [exec_getValue, getValue_eq m known]
      exact ⟨recorded.live_read inOrder rfl, recorded.pending_read rfl, recorded.levels⟩
  | readTable level num offset length =>
      have known : level < m.levels := recorded.levels ▸ clean.lt_levelsIn inOrder
      rw [exec_readTable, readTable_eq m known]
      exact ⟨recorded.live_read inOrder rfl, recorded.pending_read rfl, recorded.levels⟩
  | deleteTable level num =>
      have known : level < m.levels := recorded.levels ▸ clean.lt_levelsIn inOrder.1
      rw [exec_deleteTable, deleteTable_eq m device known]
      split
      · exact trivial
      · obtain ⟨s, located⟩ := Option.isSome_iff_exists.mp ((recorded.live _).mpr inOrder.1)
        rw [located]
        exact recorded.drop s
  | tryReset =>
      have both : Ends (fun m' => (m'.Roles device none ∧ m'.Books device none [] ∧
          m.SameLive m') ∧ m.Waited m') _ (m.tryReset device iter) :=
        ((evictable_books m).and (evictable_waited m)).tryReset
          ⟨⟨roles, books, fun _ => Iff.rfl⟩, Waited.refl m⟩ fun _ _ => trivial
      refine both.imp (fun m' holds => ?_) fun _ _ => trivial
      have recorded' := recorded.evicted holds.1.2.2 holds.2
      exact ⟨recorded'.live, recorded'.pending, recorded'.levels⟩
  | evictZone =>
      have both : Ends (fun m' => (m'.Roles device none ∧ m'.Books device none [] ∧
          m.SameLive m') ∧ m.Waited m') _ (m.evictZone device iter) :=
        ((evictable_books m).and (evictable_waited m)).evictZone
          ⟨⟨roles, books, fun _ => Iff.rfl⟩, Waited.refl m⟩ fun _ _ => trivial
      refine both.imp (fun m' holds => ?_) fun _ _ => trivial
      have recorded' := recorded.evicted holds.1.2.2 holds.2
      exact ⟨recorded'.live, recorded'.pending, recorded'.levels⟩

/-! ## Records of requests -/

/-- A new manager has served the requests of the record, and each of them returned. -/
inductive Served (device : Device) : List Op → MemoryManager → Prop
  | new {m : MemoryManager} : MemoryManager.new device = some m → Served device [] m
  | exec {log : List Op} {m m' : MemoryManager} {op : Op} {iter : Finset Nat → List Nat}
      {fuel : Nat} : Served device log m → Enumerates iter →
        m.exec device iter fuel op = .ok m' → Served device (op :: log) m'

theorem recorded_new (built : MemoryManager.new device = some m) : m.Recorded [] := by
  rw [MemoryManager.new] at built
  obtain ⟨⟨zones, pool⟩, -, done⟩ := Option.bind_eq_some_iff.mp built
  cases done
  refine ⟨?_, fun _ _ => rfl, rfl⟩
  intro t
  exact iff_of_false (by simp [Live]) (Set.notMem_empty t)

/-- A manager that has served a clean record is in a state that the store reaches, and the
ledger says what it stores. -/
theorem Served.recorded (served : Served device log m) (clean : Ledger.Clean log) :
    (storeSystem device).Reachable m ∧ m.Recorded log := by
  induction served with
  | new built => exact ⟨.init built, recorded_new built⟩
  | @exec _ _ _ _ iter fuel _ enumerates ok ih =>
      obtain ⟨reachable, recorded⟩ := ih clean.2
      obtain ⟨roles, books⟩ := books_of_reachable reachable
      exact ⟨reachable.step ⟨recorded.allowed clean.1, iter, fuel, enumerates, ok⟩,
        (recorded.exec clean.2 roles books clean.1 iter fuel).of_ok ok⟩

/-! ## Executable records -/

/-- An iteration order that evaluates by plain recursion. -/
def ascending (zones : Finset Nat) : List Nat :=
  (List.range (zones.sup id + 1)).filter (· ∈ zones)

theorem enumerates_ascending : Enumerates ascending := by
  intro zones
  constructor
  · exact List.nodup_range.filter _
  · intro zone
    rw [ascending, List.mem_filter, List.mem_range, decide_eq_true_iff, and_iff_right_iff_imp]
    intro mem
    exact Nat.lt_succ_of_le (Finset.le_sup (f := id) mem)

/-- Serve the requests of a record as long as they return. -/
def serve (device : Device) : List Op → Option MemoryManager
  | [] => MemoryManager.new device
  | op :: log => (serve device log).bind fun m => (m.exec device ascending 1 op).toOption

theorem served_of_serve (result : serve device log = some m) : Served device log m := by
  induction log generalizing m with
  | nil => exact .new result
  | cons op log ih =>
      obtain ⟨before, earlier, returned⟩ := Option.bind_eq_some_iff.mp result
      exact .exec (ih earlier) enumerates_ascending (Outcome.eq_ok_of_toOption returned)

end MemoryManager

end ZnsLsm.Pool
