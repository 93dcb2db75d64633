import ZnsLsm.Pool.Collection
import ZnsLsm.Pool.Issuing
import ZnsLsm.Pool.Reading

/-!
# Reads find their table written

The manager reads from slots of stored tables only, and only after it has waited for their
writes, if workers had them in hand.  `Fetched` says so of a record of calls: whenever a
slot is read, all slots of its zone up to it were handed out, and no write to it is pending.
-/

namespace ZnsLsm.Pool

open ZnsLsm.Outcome ZnsLsm.Transition ZnsLsm.WriteQueues

/-- A table was handed to this slot, and its write is not pending. -/
def Landed (device : Device) (calls : List Call) (s : Nat) : Prop :=
  (∃ zone < device.zoneNum, ∃ k < (planOf device calls).used zone, s = device.slot zone k) ∧
    ∀ worker ticket, .enqueue worker ticket s ∈ calls → (planOf device calls).owner ticket = none

/-- A read of at least a page stays in a slot with a written table. -/
def Call.Fetches (device : Device) (calls : List Call) : Call → Prop
  | .read len offset =>
      pageSize ≤ len ∧
        ∃ s, Landed device calls s ∧ s ≤ offset ∧ offset + len ≤ s + sstableSize
  | _ => True

/-- Every read of the record found its table written. -/
def Fetched (device : Device) : List Call → Prop
  | [] => True
  | call :: calls => call.Fetches device calls ∧ Fetched device calls

/-- The operation reads inside its table.  `getValue` rounds up to the next page, so it may
not end where the table ends. -/
def Op.InTable : Op → Prop
  | .getValue _ _ offset length => offset + length < sstableSize
  | .readTable _ _ offset length => 0 < length ∧ offset + length ≤ sstableSize
  | _ => True

variable {device : Device} {calls new : List Call} {s : Nat}

instance : (op : Op) → Decidable op.InTable
  | .getValue _ _ _ _ => inferInstanceAs (Decidable (_ < _))
  | .readTable _ _ _ _ => inferInstanceAs (Decidable (_ ∧ _))
  | .writeTable _ _ | .deleteTable _ _ | .tryReset | .evictZone => inferInstanceAs (Decidable True)

/-- Silent calls keep a table where it is. -/
theorem Landed.silent (landed : Landed device calls s) (silent : ∀ call ∈ new, call.Silent) :
    Landed device (new ++ calls) s := by
  rw [Landed, planOf_silent silent]
  refine ⟨landed.1, ?_⟩
  intro worker ticket mem
  rcases List.mem_append.mp mem with isNew | old
  · exact absurd (silent _ isNew) (by simp only [Call.Silent, not_false_eq_true])
  · exact landed.2 worker ticket old

theorem Fetched.of_append (fetched : Fetched device (new ++ calls)) : Fetched device calls := by
  induction new with
  | nil => exact fetched
  | cons call new ih => exact ih fetched.2

/-- Calls that read nothing. -/
theorem Fetched.append (fetched : Fetched device calls)
    (noRead : ∀ call ∈ new, ∀ len offset, call ≠ .read len offset) :
    Fetched device (new ++ calls) := by
  induction new with
  | nil => exact fetched
  | cons call new ih =>
      refine ⟨?_, ih fun other mem => noRead other (List.mem_cons_of_mem _ mem)⟩
      cases call with
      | read len offset => exact absurd rfl (noRead _ List.mem_cons_self len offset)
      | write _ | enqueue _ _ _ | wait _ | reset _ _ | zoneErr _ => exact trivial

/-- Reads of one slot. -/
theorem Fetched.reads (fetched : Fetched device calls) (landed : Landed device calls s)
    (reads : ∀ call ∈ new, ∃ len offset, call = .read len offset ∧ pageSize ≤ len ∧
      s ≤ offset ∧ offset + len ≤ s + sstableSize) :
    Fetched device (new ++ calls) := by
  induction new with
  | nil => exact fetched
  | cons call new ih =>
      have rest := fun other mem => reads other (List.mem_cons_of_mem call mem)
      obtain ⟨len, offset, rfl, atLeast, le, inside⟩ := reads _ List.mem_cons_self
      refine ⟨⟨atLeast, s, landed.silent ?_, le, inside⟩, ih rest⟩
      intro other mem
      obtain ⟨len', offset', rfl, -⟩ := rest other mem
      exact trivial

namespace MemoryManager

/-! ## The invariant -/

/-- The invariant: a pending table is where its ticket was enqueued for. -/
structure Fetching (device : Device) (m : MemoryManager) : Prop where
  fetched : Fetched device m.calls
  issued : ∀ worker ticket s, .enqueue worker ticket s ∈ m.calls → ticket < m.nextTicket
  aimed : ∀ t ticket worker s, m.completeTable t = some ticket →
    .enqueue worker ticket s ∈ m.calls → m.mappingTable t = some s

variable {origin : List Call} {m m' : MemoryManager} {hand leaving : Option Nat}
  {rest : List Nat} {zone : Nat} {t : TableId}

/-- The table is stored in the slot, a written one, and no other table is. -/
structure Housed (device : Device) (m : MemoryManager) (t : TableId) (s : Nat) : Prop where
  located : m.mappingTable t = some s
  alone : ∀ t', m.mappingTable t' = some s → t' = t
  written : ∃ zone < device.zoneNum, m.Written device zone s

theorem Books.housed (books : m.Books device leaving rest) (located : m.mappingTable t = some s) :
    m.Housed device t s where
  located := located
  alone t' located' := Option.some.inj
    (((books.inverse t' s).mp located').symm.trans ((books.inverse t s).mp located))
  written := books.written located

theorem Housed.congr (housed : m.Housed device t s) (mapping : m'.mappingTable = m.mappingTable)
    (used : ∀ zone, (m'.zoneMetas zone).used = (m.zoneMetas zone).used) :
    m'.Housed device t s where
  located := mapping ▸ housed.located
  alone := mapping ▸ housed.alone
  written := by
    obtain ⟨zone, zoneLt, k, lt, same⟩ := housed.written
    exact ⟨zone, zoneLt, k, used zone ▸ lt, same⟩

/-- A stored table whose write is not pending has landed. -/
theorem Fetching.landed (fetching : m.Fetching device) (issuing : m.Issuing device origin)
    (housed : m.Housed device t s) (waited : m.completeTable t = none) :
    Landed device m.calls s := by
  obtain ⟨zone, zoneLt, k, lt, same⟩ := housed.written
  refine ⟨⟨zone, zoneLt, k, issuing.used zone ▸ lt, same⟩, ?_⟩
  intro worker ticket mem
  by_contra pending
  obtain ⟨⟨worker', zone'⟩, owner⟩ := Option.ne_none_iff_exists'.mp pending
  obtain ⟨t', complete⟩ := issuing.kept ticket worker' zone' owner
  have sameTable := housed.alone t' (fetching.aimed t' ticket worker s complete mem)
  rw [sameTable, waited] at complete
  cases complete

/-- Steps that enqueue nothing and leave the pending tables where they are. -/
theorem Fetching.frame (fetching : m.Fetching device) (new : List Call)
    (calls : m'.calls = new ++ m.calls) (fetched : Fetched device (new ++ m.calls))
    (quiet : ∀ worker ticket s, .enqueue worker ticket s ∉ new)
    (tickets : m'.nextTicket = m.nextTicket)
    (pending : ∀ t ticket, m'.completeTable t = some ticket →
      m.completeTable t = some ticket ∧ m'.mappingTable t = m.mappingTable t) :
    m'.Fetching device := by
  have old : ∀ worker ticket s, .enqueue worker ticket s ∈ m'.calls →
      .enqueue worker ticket s ∈ m.calls := by
    intro worker ticket s mem
    rw [calls] at mem
    exact (List.mem_append.mp mem).resolve_left (quiet worker ticket s)
  constructor
  · rw [calls]
    exact fetched
  · intro worker ticket s mem
    rw [tickets]
    exact fetching.issued worker ticket s (old worker ticket s mem)
  · intro t ticket worker s complete mem
    obtain ⟨before, same⟩ := pending t ticket complete
    rw [same]
    exact fetching.aimed t ticket worker s before (old worker ticket s mem)

theorem mem_waits {call : Call} (mem : call ∈ m.waits t) : ∃ ticket, call = .wait ticket := by
  rw [waits] at mem
  obtain ⟨ticket, -, rfl⟩ := List.mem_map.mp mem
  exact ⟨ticket, rfl⟩

/-- Waiting for the write of a table. -/
theorem Fetching.wait (fetching : m.Fetching device) (t : TableId) :
    Fetching device
      { m with
        completeTable := Function.update m.completeTable t none
        calls := m.waits t ++ m.calls } := by
  refine fetching.frame (m.waits t) rfl (fetching.fetched.append ?_) ?_ rfl ?_
  · intro call mem len offset
    obtain ⟨ticket, rfl⟩ := mem_waits mem
    exact Call.noConfusion
  · intro worker ticket s mem
    obtain ⟨other, same⟩ := mem_waits mem
    cases same
  · intro t' ticket complete
    refine ⟨?_, rfl⟩
    dsimp only at complete
    by_cases same : t' = t
    · rw [same, Function.update_self] at complete
      cases complete
    · rwa [Function.update_of_ne same] at complete

/-- A table that was waited for has landed. -/
theorem Fetching.landed_wait (fetching : m.Fetching device) (issuing : m.Issuing device origin)
    (housed : m.Housed device t s) : Landed device (m.waits t ++ m.calls) s :=
  (fetching.wait t).landed (issuing.wait t) (housed.congr rfl fun _ => rfl)
    (Function.update_self ..)

/-! ## Resets -/

/-- A visit of the scan reads a table that has landed. -/
theorem Fetching.visit (fetching : m.Fetching device) (issuing : m.Issuing device origin)
    {table : Nat} (housed : m.Housed device (m.tableAt table) table) :
    (m.visit table).Fetching device := by
  have landed := fetching.landed_wait issuing housed
  have waited := fetching.wait (m.tableAt table)
  have read : ∀ call ∈ [Call.read sstableSize table], ∃ len offset, call = .read len offset ∧
      pageSize ≤ len ∧ table ≤ offset ∧ offset + len ≤ table + sstableSize := by
    intro call mem
    obtain rfl := List.mem_singleton.mp mem
    exact ⟨_, _, rfl, by decide, Nat.le_refl _, Nat.le_refl _⟩
  refine waited.frame [.read sstableSize table] rfl (waited.fetched.reads landed read) ?_ rfl
    fun _ _ complete => ⟨complete, rfl⟩
  intro worker ticket s mem
  cases List.mem_singleton.mp mem

theorem Fetching.zoneErr (fetching : m.Fetching device) (err : ZoneErr) :
    (m.zoneErr err).Fetching device := by
  refine fetching.frame [.zoneErr err] rfl ⟨trivial, fetching.fetched⟩ ?_ rfl
    fun _ _ complete => ⟨complete, rfl⟩
  intro worker ticket s mem
  cases List.mem_singleton.mp mem

/-- What a scan keeps as long as it visits live slots. -/
structure Scanning (device : Device) (origin : List Call) (m m' : MemoryManager) : Prop where
  issuing : m'.Issuing device origin
  fetching : m'.Fetching device
  mapping : m'.mappingTable = m.mappingTable
  remapping : m'.remappingTable = m.remappingTable
  used : ∀ zone, (m'.zoneMetas zone).used = (m.zoneMetas zone).used

theorem Scanning.visit (scanning : Scanning device origin m m') {table : Nat}
    (housed : m.Housed device t table) (at_table : m.remappingTable table = some t) :
    Scanning device origin m (m'.visit table) := by
  have tableAt : m'.tableAt table = t := by
    rw [MemoryManager.tableAt, scanning.remapping, at_table]
    rfl
  refine ⟨scanning.issuing.visit table, ?_, scanning.mapping, ?_, scanning.used⟩
  · apply scanning.fetching.visit scanning.issuing
    rw [tableAt]
    exact housed.congr scanning.mapping scanning.used
  · change Function.update m'.remappingTable table (some (m'.tableAt table)) = _
    rw [tableAt, ← at_table, ← scanning.remapping, Function.update_eq_self]

/-- The scan of a full zone visits live slots only. -/
theorem Fetching.scanZone (fetching : m.Fetching device) (issuing : m.Issuing device origin)
    (roles : m.Roles device none) (books : m.Books device none []) (full : zone ∈ m.fullZone) :
    (m.scanZone zone).2.Fetching device := by
  have start : Scanning device origin m (m.setMeta zone
      { m.zoneMetas zone with
        deletedTable := (m.zoneMetas zone).deletedTable.insertionSort (· ≤ ·) }) := by
    refine ⟨issuing.relist zone _ rfl, ?_, rfl, rfl, ?_⟩
    · exact fetching.frame [] rfl fetching.fetched (fun _ _ _ => List.not_mem_nil) rfl
        fun _ _ complete => ⟨complete, rfl⟩
    · intro other
      by_cases same : other = zone
      · rw [same, setMeta_zoneMetas_self]
        rfl
      · rw [setMeta_zoneMetas_of_ne m same]
  obtain ⟨m', scanned, result⟩ := m.scanZone_rule
    (P := fun rewrite m' =>
      (∀ s ∈ rewrite, ∃ t, m.Housed device t s ∧ m.remappingTable s = some t) →
        Scanning device origin m m')
    (fun _ => start) (by
      intro rewrite m' table _ holds live
      obtain ⟨t, housed, at_table⟩ :=
        live table (List.mem_append_right _ (List.mem_singleton_self table))
      exact (holds fun s mem => live s (List.mem_append_left _ mem)).visit housed at_table)
  have fetching' : m'.Fetching device := by
    refine (scanned ?_).fetching
    intro s mem
    obtain ⟨-, live⟩ := ((books.scanZone roles full).1.mem_rest rfl).mp mem
    obtain ⟨t, at_s⟩ := Option.ne_none_iff_exists'.mp live
    have located := ((books.scanZone roles full).1.inverse t s).mpr at_s
    rw [(m.scanZone_frame zone).1] at located
    exact ⟨t, books.housed located, (books.inverse t s).mp located⟩
  rcases result with same | same
  · rw [same]
    exact fetching'
  · rw [same]
    exact fetching'.zoneErr _

/-- A table without a pending write moves. -/
theorem Fetching.place (fetching : m.Fetching device) (toZone : Nat) {source : Nat}
    (waited : m.completeTable (m.tableAt source) = none) :
    (m.place toZone source).Fetching device := by
  have calls : (m.place toZone source).calls =
      [.write (m.zoneMetas toZone).writePtr] ++ m.calls := by
    rw [MemoryManager.place, moveTable_eq]
    rfl
  refine fetching.frame _ calls ⟨trivial, fetching.fetched⟩ ?_ ?_ ?_
  · intro worker ticket s mem
    cases List.mem_singleton.mp mem
  · rw [MemoryManager.place, moveTable_eq]
    rfl
  · intro t ticket complete
    rw [MemoryManager.place, moveTable_eq] at complete ⊢
    refine ⟨complete, Function.update_of_ne ?_ _ _⟩
    rintro rfl
    rw [show m.completeTable (m.tableAt source) = some ticket from complete] at waited
    cases waited

theorem Fetching.eraseZone (fetching : m.Fetching device) (zone : Nat) :
    (m.eraseZone device zone).Fetching device := by
  refine fetching.frame [.reset device.zoneCap (m.zoneMetas zone).start] rfl
    ⟨trivial, fetching.fetched⟩ ?_ rfl fun _ _ complete => ⟨complete, rfl⟩
  intro worker ticket s mem
  cases List.mem_singleton.mp mem

/-- Zones may enter and leave the pool, and become full. -/
theorem Fetching.moved (fetching : m.Fetching device) (pool : QueueCache)
    (full toReset : Finset Nat) :
    Fetching device { m with emptyZone := pool, fullZone := full, toReset := toReset } :=
  ⟨fetching.fetched, fetching.issued, fetching.aimed⟩

/-- Relocation reads nothing more. -/
theorem relocating_fetching (origin : List Call) (zone : Nat) (zoneMeta : ZoneMeta)
    (toReset : Finset Nat) :
    Relocating device fun hand rest m =>
      (m.Emptying device zone zoneMeta toReset hand ∧ m.Books device (some zone) rest ∧
        m.Issuing device origin ∧ m.Quiesced device zone) ∧ m.Fetching device where
  wf holds := (relocating_issuing origin zone zoneMeta toReset).wf holds.1
  placed holds := (relocating_issuing origin zone zoneMeta toReset).placed holds.1
  take := fun ⟨holds, fetching⟩ got =>
    ⟨(relocating_issuing origin zone zoneMeta toReset).take holds got, fetching.moved _ _ _⟩
  place := by
    rintro source rest toZone m ⟨holds, fetching⟩ room
    refine ⟨(relocating_issuing origin zone zoneMeta toReset).place holds room,
      fetching.place toZone ?_⟩
    obtain ⟨-, books, -, quiesced⟩ := holds
    obtain ⟨written, live⟩ := (books.mem_rest rfl).mp List.mem_cons_self
    obtain ⟨t, at_source⟩ := Option.ne_none_iff_exists'.mp live
    rw [MemoryManager.tableAt, at_source]
    exact quiesced t source ((books.inverse t source).mpr at_source) written
  fill := fun ⟨holds, fetching⟩ written =>
    ⟨(relocating_issuing origin zone zoneMeta toReset).fill holds written,
      fetching.moved _ _ _⟩
  back := fun ⟨holds, fetching⟩ room =>
    ⟨(relocating_issuing origin zone zoneMeta toReset).back holds room, fetching.moved _ _ _⟩

/-- A reset reads only tables that have landed. -/
theorem Fetching.resetZone (fetching : m.Fetching device) (issuing : m.Issuing device origin)
    (roles : m.Roles device none) (books : m.Books device none []) (zone : Nat) (force : Bool) :
    Ends (·.Fetching device) (fun halt => Fetched device halt.state.calls)
      (m.resetZone device zone force) := by
  simp only [MemoryManager.resetZone]
  split
  · exact fetching
  · rename_i notWritten
    have full : zone ∈ m.fullZone := (roles.full_iff zone (by simp)).mpr (Nat.not_lt.mp notWritten)
    simp only [if_pos full]
    split
    · split
      · exact fetching.fetched
      · exact fetching
    · split
      · split
        · obtain ⟨scanned, sameFull, sameReset⟩ := roles.scanZone zone
          have scanBooks := (books.scanZone roles full).1
          obtain ⟨issuing', waited⟩ := issuing.scanZone zone
          have emptying : (m.scanZone zone).2.Emptying device zone _ m.toReset none :=
            ⟨scanned, sameFull ▸ full, rfl, sameReset⟩
          have emptied := (relocating_fetching origin zone _ m.toReset).rewriteZone
            ⟨⟨emptying, scanBooks, issuing', scanBooks.quiesced waited⟩,
              fetching.scanZone issuing roles books full⟩
          refine (emptied.imp (fun _ holds => holds.2) ?_).bind
            fun _ _ fetching' => fetching'.eraseZone zone
          rintro halt ⟨-, rest, -, fetching'⟩
          exact fetching'.fetched
        · exact fetching.eraseZone zone
      · exact fetching

theorem evictable_fetching (origin : List Call) (before : MemoryManager) :
    Evictable device (fun _ => True)
      (fun m => ((m.Roles device none ∧ m.Books device none [] ∧ before.SameLive m) ∧
        m.Issuing device origin) ∧ m.Fetching device)
      (fun halt => Fetched device halt.state.calls) where
  reset := by
    rintro m zone force ⟨⟨⟨roles, books, same⟩, issuing⟩, fetching⟩ -
    exact (((evictable_issuing origin before).reset ⟨⟨roles, books, same⟩, issuing⟩ trivial).and
      (fetching.resetZone issuing roles books zone force)).imp (fun _ => id) fun _ both => both.2
  clear := fun ⟨holds, fetching⟩ =>
    ⟨(evictable_issuing origin before).clear holds, fetching.moved _ _ _⟩
  idle holds _ := holds.2.fetched

/-! ## The operations -/

/-- The write of a new table gets a ticket of its own. -/
theorem Fetching.entered (fetching : m.Fetching device)
    (fresh : ∀ t, m.completeTable t ≠ some m.nextTicket) (level num s : Nat) :
    (m.entered level num s).Fetching device := by
  constructor
  · exact ⟨trivial, fetching.fetched⟩
  · intro worker ticket s' mem
    rcases List.mem_cons.mp mem with new | old
    · cases new
      exact Nat.lt_succ_self _
    · exact Nat.lt_succ_of_lt (fetching.issued worker ticket s' old)
  · intro t ticket worker s' complete mem
    change Function.update m.completeTable (level, num) (some m.nextTicket) t = _ at complete
    change Function.update m.mappingTable (level, num) (some s) t = some s'
    by_cases same : t = (level, num)
    · rw [same, Function.update_self] at complete
      cases complete
      rw [same, Function.update_self]
      rcases List.mem_cons.mp mem with new | old
      · cases new
        rfl
      · exact absurd (fetching.issued worker _ s' old) (Nat.lt_irrefl _)
    · rw [Function.update_of_ne same] at complete ⊢
      refine fetching.aimed t ticket worker s' complete ?_
      rcases List.mem_cons.mp mem with new | old
      · cases new
        exact absurd complete (fresh t)
      · exact old

theorem Issuing.ticket_fresh (issuing : m.Issuing device origin) (t : TableId) :
    m.completeTable t ≠ some m.nextTicket := by
  intro complete
  obtain ⟨worker, zone, s, owner, -⟩ := issuing.pending t _ complete
  rw [issuing.fresh _ (Nat.le_refl _)] at owner
  cases owner

theorem Fetching.appendTable (fetching : m.Fetching device) (issuing : m.Issuing device origin)
    (roles : m.Roles device none) (nonempty : m.emptyZone.empty = false) (level num : Nat) :
    Ends (·.Fetching device) (fun halt => Fetched device halt.state.calls)
      (m.appendTable level num) := by
  apply m.appendTable_ends roles.wf nonempty
  · intro full opened pool _
    have turned : (m.turned full opened pool).Fetching device :=
      ⟨fetching.fetched, fetching.issued, fetching.aimed⟩
    exact turned.entered issuing.ticket_fresh level num _
  · exact fun _ _ _ => fetching.fetched

theorem Fetching.writeTable (fetching : m.Fetching device) (issuing : m.Issuing device origin)
    (roles : m.Roles device none) (books : m.Books device none []) (iter : Finset Nat → List Nat)
    (fuel level num : Nat) :
    Ends (·.Fetching device) (fun halt => Fetched device halt.state.calls)
      (m.writeTable device iter fuel level num) := by
  have loop : Ends _ _ (MemoryManager.evictLoop device iter fuel m) :=
    (evictable_fetching origin m).evictLoop ⟨⟨⟨roles, books, fun _ => Iff.rfl⟩, issuing⟩, fetching⟩
      fun _ _ => trivial
  refine loop.bind ?_
  rintro m' - ⟨⟨⟨⟨roles', -, -⟩, issuing'⟩, fetching'⟩, enough⟩
  have zonesPos := device.zoneNum_pos
  have nonempty : m'.emptyZone.empty = false := decide_eq_false (by omega)
  exact fetching'.appendTable issuing' roles' nonempty level num

/-- A table whose write was waited for may be deleted. -/
theorem Fetching.dropTable (fetching : m.Fetching device) (waited : m.completeTable t = none)
    (s : Nat) : (m.dropTable device t s).Fetching device := by
  obtain ⟨new, calls, silent⟩ : ∃ new, (m.dropTable device t s).calls = new ++ m.calls ∧
      ∀ call ∈ new, call = .zoneErr .noTable := by
    simp only [MemoryManager.dropTable]
    split
    · exact ⟨[.zoneErr .noTable], rfl, List.forall_mem_singleton.mpr rfl⟩
    · exact ⟨[], rfl, List.forall_mem_nil _⟩
  refine fetching.frame new calls (fetching.fetched.append ?_) ?_ rfl ?_
  · intro call mem len offset
    rw [silent call mem]
    exact Call.noConfusion
  · intro worker ticket slot mem
    cases silent _ mem
  · intro t' ticket complete
    refine ⟨complete, Function.update_of_ne ?_ _ _⟩
    rintro rfl
    rw [show m.completeTable t' = some ticket from complete] at waited
    cases waited

/-- Reads of a stored table, after it was waited for. -/
theorem Fetching.read (fetching : m.Fetching device) (issuing : m.Issuing device origin)
    (housed : m.Housed device t s)
    (reads : ∀ call ∈ new, ∃ len offset, call = .read len offset ∧ pageSize ≤ len ∧
      s ≤ offset ∧ offset + len ≤ s + sstableSize)
    (mapping : m'.mappingTable = m.mappingTable)
    (complete : m'.completeTable = Function.update m.completeTable t none)
    (tickets : m'.nextTicket = m.nextTicket)
    (calls : m'.calls = new ++ (m.waits t ++ m.calls)) : m'.Fetching device := by
  have waited := fetching.wait t
  have landed := fetching.landed_wait issuing housed
  refine waited.frame new calls (waited.fetched.reads landed reads) ?_ tickets ?_
  · intro worker ticket slot mem
    obtain ⟨len, offset, same, -⟩ := reads _ mem
    cases same
  · intro other ticket isPending
    rw [complete] at isPending
    exact ⟨isPending, congrFun mapping other⟩

/-- The intervals that `getValue` reads stay in the slot. -/
theorem readCall_inside (aligned : s % sstableSize = 0) {offset length : Nat}
    (inside : offset + length < sstableSize) {lru : LruCache} {it : Nat × Nat}
    (mem : it ∈ (lookup s offset length lru).1) :
    pageSize ≤ (it.2 - it.1 + 1) * pageSize ∧ s ≤ it.1 * pageSize ∧
      it.1 * pageSize + (it.2 - it.1 + 1) * pageSize ≤ s + sstableSize := by
  obtain ⟨first, ordered, last⟩ := intervals_lookup it mem
  simp only [firstPage, lastPage, pageSize, sstableSize] at *
  omega

/-- The interval that `readTable` reads stays in the slot. -/
theorem tableCall_inside (aligned : s % sstableSize = 0) {offset length : Nat}
    (pos : 0 < length) (within : offset + length ≤ sstableSize) :
    ∃ len left, tableCall s offset length = .read len left ∧ pageSize ≤ len ∧ s ≤ left ∧
      left + len ≤ s + sstableSize := by
  refine ⟨_, _, rfl, ?_⟩
  by_cases whole : (s + offset + length) % sstableSize = 0
  · rw [if_pos whole]
    simp only [pageSize, sstableSize] at *
    omega
  · rw [if_neg whole]
    simp only [pageSize, sstableSize] at *
    omega

theorem Housed.aligned (housed : m.Housed device t s) : s % sstableSize = 0 := by
  obtain ⟨zone, -, k, -, rfl⟩ := housed.written
  rw [device.slot_eq, Nat.mul_mod_right]

theorem Live.location_eq (live : m.Live t) : m.mappingTable t = some (m.location t) := by
  obtain ⟨s, located⟩ := Option.isSome_iff_exists.mp live
  rw [location, located]
  rfl

/-- Every allowed operation that reads inside its table keeps the invariant. -/
theorem Fetching.exec (fetching : m.Fetching device) (issuing : m.Issuing device origin)
    (roles : m.Roles device none) (books : m.Books device none []) {op : Op}
    (allowed : m.Allowed op) (inTable : op.InTable) (iter : Finset Nat → List Nat) (fuel : Nat) :
    Ends (·.Fetching device) (fun halt => Fetched device halt.state.calls)
      (m.exec device iter fuel op) := by
  have before : ((m.Roles device none ∧ m.Books device none [] ∧ m.SameLive m) ∧
      m.Issuing device origin) ∧ m.Fetching device :=
    ⟨⟨⟨roles, books, fun _ => Iff.rfl⟩, issuing⟩, fetching⟩
  cases op with
  | writeTable level num => exact fetching.writeTable issuing roles books iter fuel level num
  | getValue level num offset length =>
      by_cases known : level < m.levels
      · have housed := books.housed (Live.location_eq allowed)
        rw [exec_getValue, getValue_eq m known, Live.update_location allowed]
        refine fetching.read issuing housed ?_ rfl rfl rfl rfl
        intro call mem
        obtain ⟨it, isInterval, rfl⟩ := List.mem_map.mp (List.mem_reverse.mp mem)
        exact ⟨_, _, rfl, readCall_inside housed.aligned inTable isInterval⟩
      · simp only [MemoryManager.exec, MemoryManager.getValue, Nat.not_lt.mp known, if_true]
        exact fetching.fetched
  | readTable level num offset length =>
      by_cases known : level < m.levels
      · have housed := books.housed (Live.location_eq allowed)
        obtain ⟨pos, within⟩ := inTable
        rw [exec_readTable, readTable_eq m known, Live.update_location allowed]
        have read : ∀ call ∈ [tableCall (m.location (level, num)) offset length],
            ∃ len left, call = .read len left ∧ pageSize ≤ len ∧
              m.location (level, num) ≤ left ∧
              left + len ≤ m.location (level, num) + sstableSize :=
          List.forall_mem_singleton.mpr (tableCall_inside housed.aligned pos within)
        exact fetching.read issuing housed read rfl rfl rfl rfl
      · simp only [MemoryManager.exec, MemoryManager.readTable, Nat.not_lt.mp known, if_true]
        exact fetching.fetched
  | deleteTable level num =>
      rw [exec_deleteTable]
      by_cases known : level < m.levels
      · rw [deleteTable_eq m device known]
        split
        · exact fetching.fetched
        · rename_i notPending
          cases located : m.mappingTable (level, num) with
          | none => exact fetching
          | some s => exact fetching.dropTable (by simpa using notPending) s
      · simp only [MemoryManager.deleteTable, Nat.not_lt.mp known, if_true]
        exact fetching.fetched
  | tryReset =>
      exact ((evictable_fetching origin m).tryReset before fun _ _ => trivial).imp
        (fun _ after => after.2) fun _ => id
  | evictZone =>
      exact ((evictable_fetching origin m).evictZone before fun _ _ => trivial).imp
        (fun _ after => after.2) fun _ => id

theorem fetching_new (built : MemoryManager.new device = some m) : m.Fetching device := by
  simp only [MemoryManager.new, Option.bind_eq_bind, Option.bind_eq_some_iff] at built
  obtain ⟨⟨zones, pool⟩, -, done⟩ := built
  cases done
  exact ⟨trivial, fun _ _ _ mem => absurd mem List.not_mem_nil,
    fun _ _ _ _ complete => by cases complete⟩

end MemoryManager

end ZnsLsm.Pool
