import ZnsLsm.Pool.Capacity
import ZnsLsm.Pool.Issuing

/-!
# Write amplification and wear

Every slot that the manager hands out is written once, for a new table or for one that a
reset moves, and every reset gives the slots of a zone back.  A reset moves fewer tables
than a zone has slots, and one that is not forced fewer than a fifth of them.  So over any run
there are at most as many resets as new tables, and the tables moved are bounded by the new
ones.
-/

namespace ZnsLsm.Pool

open ZnsLsm.Outcome ZnsLsm.Transition ZnsLsm.WriteQueues

namespace Call

/-- A new table is handed to a worker. -/
def enqueues : Call → Bool
  | .enqueue _ _ _ => true
  | _ => false

/-- A reset moves a table. -/
def moves : Call → Bool
  | .write _ => true
  | _ => false

/-- A zone is reset. -/
def resets : Call → Bool
  | .reset _ _ => true
  | _ => false

/-- The call neither moves a table nor resets a zone. -/
def Idle (call : Call) : Prop :=
  call.moves = false ∧ call.resets = false

end Call

variable {device : Device}

/-- The zones of a call that is addressed are zones of the device. -/
theorem Call.Addressed.inside {call : Call} (addressed : call.Addressed device)
    {request : Request Nat Nat Nat} (isRequest : call.request device = some request) :
    request.In (Finset.range device.zoneNum) := by
  have zone {s : Nat} (slot : device.IsSlot s) : s / device.zoneCap < device.zoneNum := by
    obtain ⟨zone, zoneLt, k, lt, rfl⟩ := slot
    rw [device.slot_div_zoneCap lt]
    exact zoneLt
  cases call with
  | read len offset => cases isRequest
  | zoneErr err => cases isRequest
  | write offset =>
      cases isRequest
      exact Finset.mem_range.mpr (zone addressed)
  | enqueue worker ticket offset =>
      cases isRequest
      exact Finset.mem_range.mpr (zone addressed.2)
  | wait ticket =>
      cases isRequest
      exact trivial
  | reset len offset =>
      cases isRequest
      obtain ⟨zone', zoneLt, rfl⟩ := addressed
      exact Finset.mem_range.mpr (zone ⟨zone', zoneLt, 0, device.tables_pos, rfl⟩)

/-- What a call asks for, counted. -/
theorem Call.counts (device : Device) (call : Call) :
    (call.request device).elim 0 Request.slots =
        [call].countP Call.enqueues + [call].countP Call.moves ∧
      (call.request device).elim 0 Request.resets = [call].countP Call.resets := by
  cases call <;> exact ⟨rfl, rfl⟩

/-- The slots in use and those that resets have freed are the slots that were written. -/
theorem Disciplined.balance {calls : List Call} (disciplined : Disciplined device calls) :
    (∑ zone ∈ Finset.range device.zoneNum, (planOf device calls).used zone) +
        device.tables * calls.countP Call.resets =
      calls.countP Call.enqueues + calls.countP Call.moves := by
  induction calls with
  | nil => simp [planOf]
  | cons call calls ih =>
      obtain ⟨addressed, allows, before⟩ := disciplined
      have earlier := ih before
      obtain ⟨slots, resets⟩ := call.counts device
      have split (p : Call → Bool) :
          (call :: calls).countP p = [call].countP p + calls.countP p := by
        rw [← List.countP_append, List.singleton_append]
      rw [split, split, split, Nat.mul_add, ← resets, planOf]
      cases isRequest : call.request device with
      | none =>
          rw [isRequest] at slots
          simp only [Option.elim_none] at slots ⊢
          omega
      | some request =>
          rw [isRequest] at slots
          have sum := Plan.sum_after (allows request isRequest) (addressed.inside isRequest)
          simp only [Option.elim_some] at slots ⊢
          omega

namespace MemoryManager

section Wear

variable {m m' : MemoryManager} {zone share : Nat} {zoneMeta : ZoneMeta} {toReset : Finset Nat}

/-! ## One reset -/

/-- The resets so far have moved at most this share of the slots that they have freed; each
of them left a slot over. -/
structure Worn (device : Device) (share : Nat) (m : MemoryManager) : Prop where
  moved : share * m.calls.countP Call.moves + m.calls.countP Call.resets ≤
    device.tables * m.calls.countP Call.resets
  times : m.resetTimes = m.calls.countP Call.resets

/-- Calls that neither move tables nor reset zones. -/
theorem Worn.frame (worn : m.Worn device share) (new : List Call)
    (calls : m'.calls = new ++ m.calls) (idle : ∀ call ∈ new, call.Idle)
    (times : m'.resetTimes = m.resetTimes) : m'.Worn device share := by
  have moves : m'.calls.countP Call.moves = m.calls.countP Call.moves := by
    rw [calls, List.countP_append, List.countP_eq_zero.mpr fun call mem => by
      rw [(idle call mem).1]; exact Bool.false_ne_true, Nat.zero_add]
  have resets : m'.calls.countP Call.resets = m.calls.countP Call.resets := by
    rw [calls, List.countP_append, List.countP_eq_zero.mpr fun call mem => by
      rw [(idle call mem).2]; exact Bool.false_ne_true, Nat.zero_add]
  constructor
  · rw [moves, resets]
    exact worn.moved
  · rw [times, resets]
    exact worn.times

theorem waits_idle (m : MemoryManager) (t : TableId) : ∀ call ∈ m.waits t, call.Idle := by
  intro call mem
  obtain ⟨ticket, -, rfl⟩ := List.mem_map.mp mem
  exact ⟨rfl, rfl⟩

/-- A relocation that began in `origin` has moved all but the tables of `rest`. -/
structure Moving (origin : MemoryManager) (total : Nat) (rest : List Nat) (m : MemoryManager) :
    Prop where
  moves : m.calls.countP Call.moves + rest.length = origin.calls.countP Call.moves + total
  resets : m.calls.countP Call.resets = origin.calls.countP Call.resets
  times : m.resetTimes = origin.resetTimes

theorem relocating_moving (origin : MemoryManager) (total zone : Nat) (zoneMeta : ZoneMeta)
    (toReset : Finset Nat) :
    Relocating device fun hand rest m =>
      m.Emptying device zone zoneMeta toReset hand ∧ origin.Moving total rest m where
  wf holds := holds.1.roles.wf
  placed holds := holds.1.roles.placed
  take := fun ⟨emptying, moving⟩ got =>
    ⟨emptying.take got, moving.moves, moving.resets, moving.times⟩
  place := by
    rintro source rest toZone m ⟨emptying, moving⟩ room
    have calls :
        (m.place toZone source).calls = .write (m.zoneMetas toZone).writePtr :: m.calls := by
      rw [MemoryManager.place, moveTable_eq]
      rfl
    refine ⟨emptying.place room source, ?_, ?_, ?_⟩
    · have moves := moving.moves
      rw [List.length_cons] at moves
      rw [calls, List.countP_cons_of_pos rfl]
      omega
    · rw [calls, List.countP_cons_of_neg (by simp [Call.resets])]
      exact moving.resets
    · rw [MemoryManager.place, moveTable_eq]
      exact moving.times
  fill := fun ⟨emptying, moving⟩ written =>
    ⟨emptying.fill written, moving.moves, moving.resets, moving.times⟩
  back := fun ⟨emptying, moving⟩ room =>
    ⟨emptying.back room, moving.moves, moving.resets, moving.times⟩

/-- The scan waits and reads. -/
theorem moving_scan (m : MemoryManager) (zone : Nat) :
    m.Moving (m.scanZone zone).1.length (m.scanZone zone).1 (m.scanZone zone).2 := by
  obtain ⟨m', ⟨new, calls, idle, times⟩, same⟩ := @scanZone_rule m
    (fun _ m' => ∃ new, m'.calls = new ++ m.calls ∧ (∀ call ∈ new, call.Idle) ∧
      m'.resetTimes = m.resetTimes) zone
    ⟨[], rfl, List.forall_mem_nil _, rfl⟩ (by
      rintro rewrite m' table - ⟨new, calls, idle, times⟩
      refine ⟨.read sstableSize table :: (m'.waits (m'.tableAt table) ++ new), ?_, ?_, times⟩
      · change _ :: (_ ++ m'.calls) = _
        rw [calls, List.cons_append, List.append_assoc]
      · rintro call mem
        rcases List.mem_cons.mp mem with rfl | mem
        · exact ⟨rfl, rfl⟩
        · exact (List.mem_append.mp mem).elim (waits_idle _ _ call) (idle call))
  have counted : ∀ p : Call → Bool, (∀ call : Call, call.Idle → p call = false) →
      p (.zoneErr .readValidWrong) = false →
      (m.scanZone zone).2.calls.countP p = m.calls.countP p := by
    intro p none noErr
    have base : m'.calls.countP p = m.calls.countP p := by
      rw [calls, List.countP_append, List.countP_eq_zero.mpr fun call mem => by
        rw [none call (idle call mem)]; exact Bool.false_ne_true, Nat.zero_add]
    rcases same with same | same
    · rw [same, base]
    · rw [same, ← base]
      exact List.countP_cons_of_neg (by rw [noErr]; exact Bool.false_ne_true)
  refine ⟨?_, counted _ (fun _ idle => idle.2) rfl, ?_⟩
  · rw [counted _ (fun _ idle => idle.1) rfl]
  · rcases same with same | same
    · rw [same, times]
    · rw [same, ← times]
      rfl

theorem Books.rewriteZone_moving (books : m.Books device none []) (roles : m.Roles device none)
    (full : zone ∈ m.fullZone) :
    Ends (m.Moving (m.zoneMetas zone).validTableNum []) (fun _ => True)
      (m.rewriteZone zone) := by
  have scanned := roles.scanZone zone
  have moving := m.moving_scan zone
  rw [books.length_scan roles full] at moving
  exact ((relocating_moving m _ zone _ m.toReset).rewriteZone
    ⟨⟨scanned.1, scanned.2.1 ▸ full, rfl, scanned.2.2⟩, moving⟩).imp (fun _ holds => holds.2)
      fun _ _ => trivial

/-- A zone is erased after its tables have moved. -/
theorem Worn.erase (worn : m.Worn device share) {moved : Nat} (moving : m.Moving moved [] m')
    (cheap : share * moved < device.tables) (zone : Nat) :
    (m'.eraseZone device zone).Worn device share := by
  have calls : (m'.eraseZone device zone).calls =
      .reset device.zoneCap (m'.zoneMetas zone).start :: m'.calls := rfl
  have moves := moving.moves
  rw [List.length_nil, Nat.add_zero] at moves
  constructor
  · have before := worn.moved
    rw [calls, List.countP_cons_of_neg (by simp [Call.moves]), List.countP_cons_of_pos rfl, moves,
      moving.resets, Nat.mul_add, Nat.mul_succ]
    omega
  · rw [calls, List.countP_cons_of_pos rfl, moving.resets, ← worn.times, ← moving.times]
    rfl

/-- A forced reset may move all tables of a zone but one, and any other reset less than a
fifth of them. -/
def Cheap (share : Nat) (call : ResetCall) : Prop :=
  share ≤ 1 ∨ share ≤ 5 ∧ call.force = false

theorem Worn.resetZone (worn : m.Worn device share) (books : m.Books device none [])
    (roles : m.Roles device none) (zone : Nat) (force : Bool)
    (cheap : Cheap share ⟨m, zone, force⟩) :
    Ends (·.Worn device share) (fun _ => True) (m.resetZone device zone force) := by
  simp only [MemoryManager.resetZone]
  split
  · exact worn
  · rename_i written
    have full : zone ∈ m.fullZone := (roles.full_iff zone (by simp)).mpr (Nat.not_lt.mp written)
    have counted := books.counted_full roles full
    simp only [if_pos full]
    split
    · split
      · exact trivial
      · exact worn
    · rename_i rate
      rw [maximumTable_eq] at rate
      split
      · rename_i low
        rw [maximumTable_eq] at low
        have few : share * (m.zoneMetas zone).validTableNum < device.tables := by
          rcases cheap with once | ⟨fifth, unforced⟩
          · have le := Nat.mul_le_mul_right (m.zoneMetas zone).validTableNum once
            omega
          · have le := Nat.mul_le_mul_right (m.zoneMetas zone).validTableNum fifth
            change force = false at unforced
            rw [unforced] at low
            simp only [Bool.false_eq_true, or_false] at low
            omega
        split
        · refine (books.rewriteZone_moving roles full).bind ?_
          rintro m₁ - moving
          exact worn.erase moving few zone
        · have nothing : m.Moving 0 [] m := ⟨rfl, rfl, rfl⟩
          exact worn.erase nothing device.tables_pos zone
      · exact worn

theorem evictable_worn (origin : MemoryManager) :
    Evictable device (Cheap share)
      (fun m => (m.Roles device none ∧ m.Books device none [] ∧ origin.SameLive m) ∧
        m.Worn device share)
      (fun _ => True) where
  reset := fun ⟨holds, worn⟩ cheap =>
    (((evictable_books origin).reset holds trivial).and
      (worn.resetZone holds.2.1 holds.1 _ _ cheap)).imp (fun _ => id) fun _ _ => trivial
  clear := fun ⟨holds, worn⟩ => ⟨(evictable_books origin).clear holds, worn.moved, worn.times⟩
  idle _ _ := trivial

/-! ## Whole runs -/

/-- The operation forces no zone: a write finds 5% of the zones free, and an eviction finds
zones to reset. -/
def Unforced (device : Device) (m : MemoryManager) : Op → Prop
  | .writeTable _ _ => device.zoneNum ≤ m.emptyZone.size * 20
  | .evictZone => m.toReset ≠ ∅
  | _ => True

instance (m : MemoryManager) : (op : Op) → Decidable (Unforced device m op)
  | .writeTable _ _ => inferInstanceAs (Decidable (_ ≤ _))
  | .evictZone => inferInstanceAs (Decidable (_ ≠ _))
  | .getValue _ _ _ _ | .readTable _ _ _ _ | .deleteTable _ _ | .tryReset =>
      inferInstanceAs (Decidable True)

theorem cheap_of_unforced {op : Op} (unforced : Unforced device m op)
    (iter : Finset Nat → List Nat) (fuel : Nat) :
    ∀ call ∈ m.resetCalls device iter fuel op, Cheap 5 call := by
  intro call mem
  right
  refine ⟨Nat.le_refl _, ?_⟩
  cases op with
  | writeTable level num =>
      cases fuel with
      | zero => cases mem
      | succ fuel =>
          change call ∈ evictLoopCalls device iter (fuel + 1) m at mem
          rw [evictLoopCalls, if_neg (Nat.not_lt.mpr unforced)] at mem
          cases mem
  | evictZone =>
      change call ∈ evictZoneCalls device iter m at mem
      rw [evictZoneCalls, if_pos (show m.toReset ≠ ∅ from unforced)] at mem
      exact resetZonesCalls_force call mem
  | tryReset => exact resetZonesCalls_force call mem
  | getValue level num offset length => cases mem
  | readTable level num offset length => cases mem
  | deleteTable level num => cases mem

theorem Worn.append (worn : m.Worn device share) (roles : m.Roles device none)
    (nonempty : m.emptyZone.empty = false) (level num : Nat) :
    Ends (·.Worn device share) (fun _ => True) (m.appendTable level num) := by
  apply m.appendTable_ends roles.wf nonempty
  · intro full opened pool _
    exact worn.frame [.enqueue _ m.nextTicket _] rfl (List.forall_mem_singleton.mpr ⟨rfl, rfl⟩) rfl
  · exact fun _ _ _ => trivial

theorem Worn.exec (worn : m.Worn device share) (books : m.Books device none [])
    (roles : m.Roles device none) (iter : Finset Nat → List Nat) (fuel : Nat) (op : Op)
    (cheap : ∀ call ∈ m.resetCalls device iter fuel op, Cheap share call) :
    Ends (·.Worn device share) (fun _ => True) (m.exec device iter fuel op) := by
  have start : (m.Roles device none ∧ m.Books device none [] ∧ m.SameLive m) ∧
      m.Worn device share := ⟨⟨roles, books, fun _ => Iff.rfl⟩, worn⟩
  cases op with
  | writeTable level num =>
      refine ((evictable_worn m).evictLoop start cheap).bind ?_
      rintro m₁ - ⟨⟨⟨roles₁, -⟩, worn₁⟩, enough⟩
      have zonesPos := device.zoneNum_pos
      exact worn₁.append roles₁ (decide_eq_false (by omega)) level num
  | getValue level num offset length =>
      by_cases known : level < m.levels
      · rw [exec_getValue, getValue_eq m known]
        refine worn.frame (_ ++ m.waits (level, num)) (List.append_assoc ..).symm ?_ rfl
        intro call mem
        rcases List.mem_append.mp mem with read | waited
        · obtain ⟨it, -, rfl⟩ := List.mem_map.mp (List.mem_reverse.mp read)
          exact ⟨rfl, rfl⟩
        · exact m.waits_idle _ call waited
      · simp only [MemoryManager.exec, MemoryManager.getValue, Nat.not_lt.mp known, if_true]
        exact trivial
  | readTable level num offset length =>
      by_cases known : level < m.levels
      · rw [exec_readTable, readTable_eq m known]
        refine worn.frame (tableCall _ offset length :: m.waits (level, num)) rfl ?_ rfl
        intro call mem
        rcases List.mem_cons.mp mem with rfl | waited
        · exact ⟨rfl, rfl⟩
        · exact m.waits_idle _ call waited
      · simp only [MemoryManager.exec, MemoryManager.readTable, Nat.not_lt.mp known, if_true]
        exact trivial
  | deleteTable level num =>
      by_cases known : level < m.levels
      · rw [exec_deleteTable, deleteTable_eq m device known]
        split
        · exact trivial
        · cases m.mappingTable (level, num) with
          | none => exact worn
          | some s =>
              refine worn.frame (if (m.zoneMetas (s / device.zoneCap)).writePtr ≤ s then
                [.zoneErr .noTable] else []) ?_ ?_ rfl
              · change (if _ then _ else _) = _
                split <;> rfl
              · intro call mem
                split at mem
                · obtain rfl := List.mem_singleton.mp mem
                  exact ⟨rfl, rfl⟩
                · cases mem
      · simp only [MemoryManager.exec, MemoryManager.deleteTable, Nat.not_lt.mp known, if_true]
        exact trivial
  | tryReset =>
      exact ((evictable_worn m).tryReset start cheap).imp (fun _ holds => holds.2) fun _ => id
  | evictZone =>
      exact ((evictable_worn m).evictZone start cheap).imp (fun _ holds => holds.2) fun _ => id

theorem worn_new (built : new device = some m) : m.Worn device share := by
  simp only [new, Option.bind_eq_bind, Option.bind_eq_some_iff] at built
  obtain ⟨⟨zones, pool⟩, -, done⟩ := built
  cases done
  exact ⟨Nat.le_refl _, rfl⟩

/-- In every run whose resets are all cheap, they are cheap altogether. -/
theorem worn_of_reachable {ok : MemoryManager → Op → Prop}
    (cheap : ∀ {m op}, ok m op → ∀ iter fuel,
      ∀ call ∈ m.resetCalls device iter fuel op, Cheap share call)
    (reachable : ((storeSystem device).guarded ok).Reachable m) : m.Worn device share :=
  System.invariant_of_reachable_with
    (K := fun m => m.Roles device none ∧ m.Books device none [])
    (fun _ reached => books_of_reachable (System.reachable_of_guarded reached))
    (fun _ built => worn_new built)
    (fun _ op _ ⟨roles, books⟩ worn ⟨allowed, _, iter, fuel, _, done⟩ =>
      (worn.exec books roles iter fuel op (cheap allowed iter fuel)).of_ok done)
    reachable

/-- What the tables that were stored, moved and reset away add up to. -/
structure Wears (device : Device) (m : MemoryManager) : Prop where
  /-- Every slot that was written is in use or was freed by a reset. -/
  balance : (∑ zone ∈ Finset.range device.zoneNum, (m.zoneMetas zone).used) +
      device.tables * m.resetTimes =
    m.calls.countP Call.enqueues + m.calls.countP Call.moves
  times : m.resetTimes = m.calls.countP Call.resets
  resets_le : m.resetTimes ≤ m.calls.countP Call.enqueues
  moves_le : m.calls.countP Call.moves ≤
    (device.tables - 1) * m.calls.countP Call.enqueues
  /-- Without forced resets, at most a quarter as many tables are moved as are stored. -/
  unforced : ((storeSystem device).guarded (Unforced device)).Reachable m →
    4 * m.calls.countP Call.moves + m.resetTimes ≤ m.calls.countP Call.enqueues

/-- Over every run, moving tables costs at most one write for each slot of a zone but one and
each table that was stored. -/
theorem wears_of_reachable (reachable : (storeSystem device).Reachable m) : m.Wears device := by
  have issuing := issuing_of_reachable reachable
  have balance := issuing.disciplined.balance
  rw [Finset.sum_congr rfl fun zone _ => issuing.used zone] at balance
  have worn : m.Worn device 1 := by
    have anyhow : ((storeSystem device).guarded fun _ _ => True).Reachable m :=
      System.reachable_guarded_of_forall (fun _ _ => trivial) reachable
    exact worn_of_reachable (fun _ _ _ _ _ => .inl (Nat.le_refl _)) anyhow
  have moved := worn.moved
  have times := worn.times
  have resetsLe : m.resetTimes ≤ m.calls.countP Call.enqueues := by
    rw [times]
    omega
  rw [← times] at balance moved
  constructor
  · exact balance
  · exact times
  · exact resetsLe
  · calc m.calls.countP Call.moves
        ≤ (device.tables - 1) * m.resetTimes := by rw [Nat.sub_mul]; omega
      _ ≤ (device.tables - 1) * m.calls.countP Call.enqueues := Nat.mul_le_mul_left _ resetsLe
  · intro unforced
    have fifth : m.Worn device 5 := worn_of_reachable (fun ok => cheap_of_unforced ok) unforced
    have moved := fifth.moved
    rw [← times] at moved
    omega

/-- The alternative device after its first zone was written, emptied and reset. -/
theorem wears_after_reset :
    ∃ m, storeRun device8G 1
        [.writeTable 0 0, .readTable 0 0 0 0, .deleteTable 0 0, .tryReset] = some m ∧
      m.resetTimes = 1 ∧ m.Wears device8G := by
  obtain ⟨m, run, times⟩ := Option.map_eq_some_iff.mp
    (show (storeRun device8G 1
      [.writeTable 0 0, .readTable 0 0 0 0, .deleteTable 0 0, .tryReset]).map
        MemoryManager.resetTimes = some 1 by decide +kernel)
  exact ⟨m, run, times, wears_of_reachable (reachable_of_storeRun run)⟩

end Wear

end MemoryManager

end ZnsLsm.Pool
