import ZnsLsm.Pool.Bookkeeping
import ZnsLsm.WriteQueues

/-!
# The discipline of the manager

The manager fills its zones slot by slot.  It leaves the writes of an open zone to the
worker of its open slot, moves tables only into zones without pending writes, and
resets only zones whose tables it has waited for and moved away.  Its record of calls
shows all that: `Disciplined` says so of a record, and every operation keeps it.
-/

namespace ZnsLsm.Pool

open ZnsLsm.Outcome ZnsLsm.Transition ZnsLsm.WriteQueues

namespace Device

variable (device : Device)

/-- The number of the slot at `s` within its zone. -/
def slotIndex (s : Nat) : Nat :=
  s % device.zoneCap / sstableSize

@[simp]
theorem slotIndex_slot (zone : Nat) {k : Nat} (lt : k < device.tables) :
    device.slotIndex (device.slot zone k) = k := by
  have inside : sstableSize * k < device.zoneCap := by
    rw [zoneCap_eq, Nat.mul_comm device.tables]
    exact Nat.mul_lt_mul_of_pos_left lt sstableSize_pos
  rw [slotIndex, slot, Nat.mul_comm zone, Nat.mul_add_mod, Nat.mod_eq_of_lt inside,
    Nat.mul_div_cancel_left _ sstableSize_pos]

end Device

/-- The workers of the thread pool. -/
def workerNum : Nat :=
  openZoneNum + 1

/-! ## Records of calls -/

/-- What a call asks of the zones. -/
def Call.request (device : Device) : Call → Option (Request Nat Nat Nat)
  | .read _ _ => none
  | .write offset => some (.write (offset / device.zoneCap) (device.slotIndex offset))
  | .enqueue worker ticket offset =>
      some (.enqueue worker ticket (offset / device.zoneCap) (device.slotIndex offset))
  | .wait ticket => some (.wait ticket)
  | .reset _ offset => some (.reset (offset / device.zoneCap))
  | .zoneErr _ => none

@[simp]
theorem Call.request_write {device : Device} {zone k : Nat} (lt : k < device.tables) :
    Call.request device (.write (device.slot zone k)) = some (.write zone k) := by
  rw [Call.request, device.slot_div_zoneCap lt, device.slotIndex_slot zone lt]

@[simp]
theorem Call.request_enqueue {device : Device} {zone k worker ticket : Nat}
    (lt : k < device.tables) :
    Call.request device (.enqueue worker ticket (device.slot zone k)) =
      some (.enqueue worker ticket zone k) := by
  rw [Call.request, device.slot_div_zoneCap lt, device.slotIndex_slot zone lt]

@[simp]
theorem Call.request_reset {device : Device} (zone len : Nat) :
    Call.request device (.reset len (device.slot zone 0)) = some (.reset zone) := by
  rw [Call.request, device.slot_div_zoneCap device.tables_pos]

/-- The location is a slot of the device. -/
def Device.IsSlot (device : Device) (s : Nat) : Prop :=
  ∃ zone < device.zoneNum, ∃ k < device.tables, s = device.slot zone k

/-- A call that writes or resets addresses a slot or a zone of the device. -/
def Call.Addressed (device : Device) : Call → Prop
  | .write offset => device.IsSlot offset
  | .enqueue worker _ offset => worker < workerNum ∧ device.IsSlot offset
  | .reset _ offset => ∃ zone < device.zoneNum, offset = device.slot zone 0
  | _ => True

/-- A call that asks nothing of the zones. -/
def Call.Silent : Call → Prop
  | .read _ _ => True
  | .zoneErr _ => True
  | _ => False

/-- The plan after the calls of a record, newest first. -/
def planOf (device : Device) : List Call → Plan Nat Nat Nat
  | [] => ⟨fun _ => 0, fun _ => none⟩
  | call :: calls =>
      match call.request device with
      | none => planOf device calls
      | some request => (planOf device calls).after request

/-- Every call of the record was allowed by the plan at its time. -/
def Disciplined (device : Device) : List Call → Prop
  | [] => True
  | call :: calls =>
      call.Addressed device ∧
        (∀ request, call.request device = some request →
          (planOf device calls).Allows device.tables request) ∧
        Disciplined device calls

variable {device : Device}

theorem Call.Silent.noRequest {call : Call} (silent : call.Silent) :
    call.Addressed device ∧ call.request device = none := by
  cases call with
  | read len offset => exact ⟨trivial, rfl⟩
  | zoneErr err => exact ⟨trivial, rfl⟩
  | write offset => cases silent
  | enqueue worker ticket offset => cases silent
  | wait ticket => cases silent
  | reset len offset => cases silent

@[simp]
theorem planOf_silent {new calls : List Call} (silent : ∀ call ∈ new, call.Silent) :
    planOf device (new ++ calls) = planOf device calls := by
  induction new with
  | nil => rfl
  | cons call new ih =>
      have here : call.request device = none := (silent call List.mem_cons_self).noRequest.2
      rw [List.cons_append, planOf, here]
      exact ih fun other mem => silent other (List.mem_cons_of_mem _ mem)

theorem Disciplined.silent {new calls : List Call} (disciplined : Disciplined device calls)
    (silent : ∀ call ∈ new, call.Silent) : Disciplined device (new ++ calls) := by
  induction new with
  | nil => exact disciplined
  | cons call new ih =>
      have silently : call.Silent := silent call List.mem_cons_self
      obtain ⟨addressed, none⟩ : call.Addressed device ∧ call.request device = none :=
        silently.noRequest
      refine ⟨addressed, ?_, ih fun other mem => silent other (List.mem_cons_of_mem _ mem)⟩
      intro request isRequest
      rw [none] at isRequest
      cases isRequest

theorem Disciplined.of_append {new calls : List Call}
    (disciplined : Disciplined device (new ++ calls)) : Disciplined device calls := by
  induction new with
  | nil => exact disciplined
  | cons call new ih => exact ih disciplined.2.2

namespace MemoryManager

/-! ## The invariant -/

/-- Pending writes of the zone are left to this worker: the zone is full, or the worker
is that of the open slot that holds the zone. -/
def Assigned (m : MemoryManager) (worker zone : Nat) : Prop :=
  zone ∈ m.fullZone ∨
    ∃ slot < openZoneNum, m.openZone[slot]? = some zone ∧
      worker = (slot + 1) % openZoneNum + 1

/-- The invariant; the record continues `origin`. -/
structure Issuing (device : Device) (origin : List Call) (m : MemoryManager) : Prop where
  disciplined : Disciplined device m.calls
  since : origin <:+ m.calls
  used : ∀ zone, (planOf device m.calls).used zone = (m.zoneMetas zone).used
  fresh : ∀ ticket, m.nextTicket ≤ ticket → (planOf device m.calls).owner ticket = none
  kept : ∀ ticket worker zone, (planOf device m.calls).owner ticket = some (worker, zone) →
    ∃ t, m.completeTable t = some ticket
  /-- A table whose write is pending is in the zone that its ticket names. -/
  pending : ∀ t ticket, m.completeTable t = some ticket → ∃ worker zone s,
    (planOf device m.calls).owner ticket = some (worker, zone) ∧
      m.mappingTable t = some s ∧ m.Written device zone s ∧ m.Assigned worker zone
  distinct : ∀ t t' ticket, m.completeTable t = some ticket → m.completeTable t' = some ticket →
    t = t'

variable {device : Device} {origin : List Call} {m m' : MemoryManager} {hand leaving : Option Nat}
  {rest : List Nat} {zone : Nat}

/-! ## Zones without pending writes -/

/-- The pending writes of a zone are left to one worker. -/
theorem Issuing.assigned (issuing : m.Issuing device origin) {ticket worker : Nat}
    (owner : (planOf device m.calls).owner ticket = some (worker, zone)) :
    m.Assigned worker zone := by
  obtain ⟨t, complete⟩ := issuing.kept ticket worker zone owner
  obtain ⟨worker', zone', s, owner', -, -, assigned⟩ := issuing.pending t ticket complete
  rw [owner] at owner'
  cases owner'
  exact assigned

theorem Issuing.settled_of_unassigned (issuing : m.Issuing device origin)
    (unassigned : ∀ worker, ¬m.Assigned worker zone) :
    (planOf device m.calls).Settled zone :=
  fun _ worker owner => unassigned worker (issuing.assigned owner)

/-- A zone that no table is in has no pending writes. -/
theorem Issuing.settled_of_unused (issuing : m.Issuing device origin)
    (unused : ∀ t s, m.mappingTable t = some s → ¬m.Written device zone s) :
    (planOf device m.calls).Settled zone := by
  intro ticket worker owner
  obtain ⟨t, complete⟩ := issuing.kept ticket worker zone owner
  obtain ⟨worker', zone', s, owner', located, written, -⟩ := issuing.pending t ticket complete
  rw [owner] at owner'
  cases owner'
  exact unused t s located written

theorem Roles.open_nodup (roles : m.Roles device hand) : m.openZone.Nodup := by
  rw [List.nodup_iff_count_le_one]
  intro zone
  have le := roles.occurs_le zone
  simp only [occurrences] at le
  omega

/-- The zone in hand is neither full nor open. -/
theorem Roles.hand_unassigned (roles : m.Roles device (some zone)) (worker : Nat) :
    ¬m.Assigned worker zone := by
  rintro (full | ⟨slot, -, isOpen, -⟩)
  · exact (roles.inHand rfl).2 full
  · have le := roles.occurs_le zone
    have count := List.count_pos_iff.mpr (List.mem_of_getElem? isOpen)
    simp only [occurrences, if_true] at le
    omega

/-! ## Steps -/

/-- Silent calls, and changes that do not touch pending tables. -/
theorem Issuing.frame (issuing : m.Issuing device origin) (new : List Call)
    (calls : m'.calls = new ++ m.calls) (silent : ∀ call ∈ new, call.Silent)
    (used : ∀ zone, (m'.zoneMetas zone).used = (m.zoneMetas zone).used)
    (tickets : m'.nextTicket = m.nextTicket) (complete : m'.completeTable = m.completeTable)
    (mapping : ∀ t, m.completeTable t ≠ none → m'.mappingTable t = m.mappingTable t)
    (assigned : ∀ worker zone, m.Assigned worker zone → m'.Assigned worker zone) :
    m'.Issuing device origin := by
  have plan : planOf device m'.calls = planOf device m.calls := by
    rw [calls]
    exact planOf_silent silent
  constructor
  · rw [calls]
    exact issuing.disciplined.silent silent
  · rw [calls]
    exact issuing.since.trans (List.suffix_append _ _)
  · intro zone
    rw [plan, used]
    exact issuing.used zone
  · intro ticket le
    rw [plan]
    exact issuing.fresh ticket (tickets ▸ le)
  · intro ticket worker zone owner
    rw [plan] at owner
    rw [complete]
    exact issuing.kept ticket worker zone owner
  · intro t ticket isPending
    rw [complete] at isPending
    obtain ⟨worker, zone, s, owner, located, ⟨k, lt, same⟩, isAssigned⟩ :=
      issuing.pending t ticket isPending
    refine ⟨worker, zone, s, plan ▸ owner, ?_, ⟨k, ?_, same⟩, assigned worker zone isAssigned⟩
    · rw [mapping t (by rw [isPending]; simp)]
      exact located
    · rw [used]
      exact lt
  · rw [complete]
    exact issuing.distinct

/-- Waiting for the write of a table. -/
theorem Issuing.wait (issuing : m.Issuing device origin) (t : TableId) :
    Issuing device origin
      { m with
        completeTable := Function.update m.completeTable t none
        calls := m.waits t ++ m.calls } := by
  cases complete : m.completeTable t with
  | none =>
      have same : Function.update m.completeTable t none = m.completeTable := by
        rw [← complete, Function.update_eq_self]
      rw [waits, complete, same]
      exact issuing
  | some ticket =>
      have calls : m.waits t ++ m.calls = .wait ticket :: m.calls := by
        rw [waits, complete]
        rfl
      have still : ∀ {t' other}, Function.update m.completeTable t none t' = some other →
          m.completeTable t' = some other ∧ other ≠ ticket := by
        intro t' other isPending
        by_cases same : t' = t
        · rw [same, Function.update_self] at isPending
          cases isPending
        · rw [Function.update_of_ne same] at isPending
          refine ⟨isPending, ?_⟩
          rintro rfl
          exact same (issuing.distinct t' t other isPending complete)
      rw [calls]
      constructor
      · refine ⟨trivial, ?_, issuing.disciplined⟩
        rintro request isRequest
        cases isRequest
        exact trivial
      · exact issuing.since.trans (List.suffix_cons _ _)
      · exact issuing.used
      · intro other le
        change Function.update (planOf device m.calls).owner ticket none other = none
        by_cases same : other = ticket
        · rw [same, Function.update_self]
        · rw [Function.update_of_ne same]
          exact issuing.fresh other le
      · intro other worker zone owner
        change Function.update (planOf device m.calls).owner ticket none other = _ at owner
        by_cases same : other = ticket
        · rw [same, Function.update_self] at owner
          cases owner
        · rw [Function.update_of_ne same] at owner
          obtain ⟨t', isPending⟩ := issuing.kept other worker zone owner
          refine ⟨t', ?_⟩
          dsimp only
          rw [Function.update_of_ne]
          · exact isPending
          · rintro rfl
            rw [complete] at isPending
            exact same (Option.some.inj isPending).symm
      · intro t' other isPending
        obtain ⟨isPending, ne⟩ := still isPending
        obtain ⟨worker, zone, s, owner, located⟩ := issuing.pending t' other isPending
        refine ⟨worker, zone, s, ?_, located⟩
        change Function.update (planOf device m.calls).owner ticket none other = _
        rw [Function.update_of_ne ne]
        exact owner
      · intro t' t'' other isPending isPending'
        exact issuing.distinct t' t'' other (still isPending).1 (still isPending').1

/-- Visiting a slot waits for the table in it. -/
theorem Issuing.visit (issuing : m.Issuing device origin) (table : Nat) :
    (m.visit table).Issuing device origin := by
  have waited := issuing.wait (m.tableAt table)
  exact waited.frame [.read sstableSize table] rfl (List.forall_mem_singleton.mpr trivial)
    (fun _ => rfl) rfl rfl (fun _ _ => rfl) fun _ _ => id

/-- The record of a zone changes, but not its written slots. -/
theorem Issuing.relist (issuing : m.Issuing device origin) (zone : Nat) (zoneMeta : ZoneMeta)
    (used : zoneMeta.used = (m.zoneMetas zone).used) :
    (m.setMeta zone zoneMeta).Issuing device origin := by
  refine issuing.frame [] rfl (List.forall_mem_nil _) ?_ rfl rfl (fun _ _ => rfl) fun _ _ => id
  intro other
  by_cases same : other = zone
  · subst same
    rw [setMeta_zoneMetas_self]
    exact used
  · rw [setMeta_zoneMetas_of_ne m same]

theorem Issuing.zoneErr (issuing : m.Issuing device origin) (err : ZoneErr) :
    (m.zoneErr err).Issuing device origin :=
  issuing.frame [.zoneErr err] rfl (List.forall_mem_singleton.mpr trivial) (fun _ => rfl) rfl rfl
    (fun _ _ => rfl) fun _ _ => id

/-- Zones may enter and leave the pool, and become full. -/
theorem Issuing.moved (issuing : m.Issuing device origin) (pool : QueueCache)
    {full toReset : Finset Nat} (grows : m.fullZone ⊆ full) :
    Issuing device origin
      { m with emptyZone := pool, fullZone := full, toReset := toReset } := by
  refine issuing.frame [] rfl (List.forall_mem_nil _) (fun _ => rfl) rfl rfl (fun _ _ => rfl) ?_
  rintro worker zone (isFull | isOpen)
  · exact .inl (grows isFull)
  · exact .inr isOpen

/-- A table without a pending write moves to a zone without pending writes. -/
theorem Issuing.place {toZone source : Nat} (issuing : m.Issuing device origin)
    (roles : m.Roles device (some toZone))
    (room : (m.zoneMetas toZone).used < device.tables)
    (waited : m.completeTable (m.tableAt source) = none) :
    (m.place toZone source).Issuing device origin := by
  have placed := roles.placed toZone
  have lt := (roles.inHand rfl).1
  have settled := issuing.settled_of_unassigned roles.hand_unassigned
  have metas := place_zoneMetas toZone m source
  have written := roles.written_grow metas
  have complete : (m.place toZone source).completeTable = m.completeTable := by
    rw [MemoryManager.place, moveTable_eq]
    rfl
  have calls : (m.place toZone source).calls =
      .write (device.slot toZone (m.zoneMetas toZone).used) :: m.calls := by
    rw [MemoryManager.place, moveTable_eq, placed.writePtr_eq]
    rfl
  have request : Call.request device (.write (device.slot toZone (m.zoneMetas toZone).used)) =
      some (.write toZone (m.zoneMetas toZone).used) := Call.request_write room
  have plan : planOf device (m.place toZone source).calls =
      (planOf device m.calls).after (.write toZone (m.zoneMetas toZone).used) := by
    rw [calls, planOf, request]
  have others : ∀ t, m.completeTable t ≠ none →
      (m.place toZone source).mappingTable t = m.mappingTable t := by
    intro t isPending
    rw [MemoryManager.place, moveTable_eq]
    apply Function.update_of_ne
    rintro rfl
    exact isPending waited
  constructor
  · rw [calls]
    refine ⟨⟨toZone, lt, _, room, rfl⟩, ?_, issuing.disciplined⟩
    intro request' isRequest
    rw [request] at isRequest
    cases isRequest
    exact ⟨(issuing.used toZone).symm, room, settled⟩
  · rw [calls]
    exact issuing.since.trans (List.suffix_cons _ _)
  · intro other
    rw [plan, metas]
    change Function.update (planOf device m.calls).used toZone _ other = _
    by_cases same : other = toZone
    · subst same
      rw [Function.update_self, Function.update_self, placed.used_grow]
    · rw [Function.update_of_ne same, Function.update_of_ne same]
      exact issuing.used other
  · intro ticket le
    rw [plan]
    apply issuing.fresh ticket
    rwa [MemoryManager.place, moveTable_eq] at le
  · intro ticket worker zone owner
    rw [plan] at owner
    rw [complete]
    exact issuing.kept ticket worker zone owner
  · intro t ticket isPending
    rw [complete] at isPending
    obtain ⟨worker, zone, s, owner, located, isWritten, assigned⟩ :=
      issuing.pending t ticket isPending
    refine ⟨worker, zone, s, plan ▸ owner, ?_, (written zone s).mpr (.inl isWritten), ?_⟩
    · rw [others t (by rw [isPending]; simp)]
      exact located
    · rw [MemoryManager.place, moveTable_eq]
      exact assigned
  · rw [complete]
    exact issuing.distinct

/-- Erasing a full zone that no table is in. -/
theorem Issuing.eraseZone (issuing : m.Issuing device origin) (roles : m.Roles device none)
    (full : zone ∈ m.fullZone)
    (unused : ∀ t s, m.mappingTable t = some s → ¬m.Written device zone s) :
    (m.eraseZone device zone).Issuing device origin := by
  have lt : zone < device.zoneNum :=
    roles.lt_of_occurs (by simp only [occurrences, full, if_true]; omega)
  have placed := roles.placed zone
  have allUsed := placed.end_le_iff.mp ((roles.full_iff zone (by simp)).mp full)
  have start : (m.zoneMetas zone).start = device.slot zone 0 := by
    rw [placed.start_eq, Device.slot, Nat.mul_zero, Nat.add_zero]
  have calls : (m.eraseZone device zone).calls =
      .reset device.zoneCap (device.slot zone 0) :: m.calls := by
    rw [← start]
    rfl
  have request : Call.request device (.reset device.zoneCap (device.slot zone 0)) =
      some (.reset zone) := Call.request_reset zone _
  have plan : planOf device (m.eraseZone device zone).calls =
      (planOf device m.calls).after (.reset zone) := by
    rw [calls, planOf, request]
  have settled := issuing.settled_of_unused unused
  have used : ∀ other, ((m.eraseZone device zone).zoneMetas other).used =
      Function.update (fun other => (m.zoneMetas other).used) zone 0 other := by
    intro other
    change (Function.update m.zoneMetas zone _ other).used = _
    by_cases same : other = zone
    · subst same
      rw [Function.update_self, Function.update_self]
      simp [ZoneMeta.used]
    · rw [Function.update_of_ne same, Function.update_of_ne same]
  constructor
  · rw [calls]
    refine ⟨⟨zone, lt, rfl⟩, ?_, issuing.disciplined⟩
    intro request' isRequest
    rw [request] at isRequest
    cases isRequest
    exact ⟨(issuing.used zone).trans allUsed, settled⟩
  · rw [calls]
    exact issuing.since.trans (List.suffix_cons _ _)
  · intro other
    rw [plan, used]
    change Function.update (planOf device m.calls).used zone 0 other = _
    rw [funext issuing.used]
  · intro ticket le
    rw [plan]
    exact issuing.fresh ticket le
  · intro ticket worker other owner
    rw [plan] at owner
    exact issuing.kept ticket worker other owner
  · intro t ticket isPending
    obtain ⟨worker, other, s, owner, located, ⟨k, below, same⟩, assigned⟩ :=
      issuing.pending t ticket isPending
    have ne : other ≠ zone := by
      rintro rfl
      exact unused t s located ⟨k, below, same⟩
    refine ⟨worker, other, s, plan ▸ owner, located, ⟨k, ?_, same⟩, ?_⟩
    · rw [used, Function.update_of_ne ne]
      exact below
    · rcases assigned with isFull | isOpen
      · exact .inl (Finset.mem_erase.mpr ⟨ne, isFull⟩)
      · exact .inr isOpen
  · exact issuing.distinct

/-! ## Resets -/

/-- No table in the zone has a pending write. -/
def Quiesced (device : Device) (m : MemoryManager) (zone : Nat) : Prop :=
  ∀ t s, m.mappingTable t = some s → m.Written device zone s → m.completeTable t = none

theorem Issuing.scanZone (issuing : m.Issuing device origin) (zone : Nat) :
    (m.scanZone zone).2.Issuing device origin ∧
      ∀ s ∈ (m.scanZone zone).1,
        (m.scanZone zone).2.completeTable ((m.scanZone zone).2.tableAt s) = none := by
  have sorted := issuing.relist zone
    { m.zoneMetas zone with
      deletedTable := (m.zoneMetas zone).deletedTable.insertionSort (· ≤ ·) } rfl
  obtain ⟨m', ⟨issuing', waited⟩, same | same⟩ := m.scanZone_rule
    (P := fun rewrite m' => m'.Issuing device origin ∧
      ∀ s ∈ rewrite, m'.completeTable (m'.tableAt s) = none)
    ⟨sorted, List.forall_mem_nil _⟩ (by
      intro rewrite m' table _ holds
      refine ⟨holds.1.visit table, ?_⟩
      have tableAt : ∀ s, (m'.visit table).tableAt s = m'.tableAt s := by
        intro s
        change (Function.update m'.remappingTable table (some (m'.tableAt table)) s).getD (0, 0) = _
        by_cases here : s = table
        · rw [here, Function.update_self]
          rfl
        · rw [Function.update_of_ne here]
          rfl
      intro s mem
      rw [tableAt]
      change Function.update m'.completeTable (m'.tableAt table) none (m'.tableAt s) = none
      by_cases here : m'.tableAt s = m'.tableAt table
      · rw [here, Function.update_self]
      · rw [Function.update_of_ne here]
        rcases List.mem_append.mp mem with old | new
        · exact holds.2 s old
        · obtain rfl := List.mem_singleton.mp new
          exact absurd rfl here)
  · rw [same]
    exact ⟨issuing', waited⟩
  · rw [same]
    exact ⟨issuing'.zoneErr _, waited⟩

/-- After the scan, no table in the zone has a pending write. -/
theorem Books.quiesced (books : m.Books device (some zone) rest)
    (waited : ∀ s ∈ rest, m.completeTable (m.tableAt s) = none) : m.Quiesced device zone := by
  intro t s located written
  have at_s := (books.inverse t s).mp located
  have mem : s ∈ rest := (books.mem_rest rfl).mpr ⟨written, by rw [at_s]; simp⟩
  have isWaited := waited s mem
  rwa [tableAt, at_s] at isWaited

/-- Relocation keeps the discipline. -/
theorem relocating_issuing (origin : List Call) (zone : Nat) (zoneMeta : ZoneMeta)
    (toReset : Finset Nat) :
    Relocating device fun hand rest m =>
      m.Emptying device zone zoneMeta toReset hand ∧ m.Books device (some zone) rest ∧
        m.Issuing device origin ∧ m.Quiesced device zone where
  wf holds := holds.1.roles.wf
  placed holds := holds.1.roles.placed
  take := fun ⟨emptying, books, issuing, quiesced⟩ got =>
    ⟨emptying.take got, books.congr rfl rfl rfl books.clean,
      issuing.moved _ (Finset.Subset.refl _), quiesced⟩
  place := by
    rintro source rest toZone m ⟨emptying, books, issuing, quiesced⟩ room
    have usedLt := (emptying.roles.placed toZone).lt_end_iff.mp room
    obtain ⟨written, live⟩ := (books.mem_rest rfl).mp List.mem_cons_self
    obtain ⟨t, at_source⟩ := Option.ne_none_iff_exists'.mp live
    have tableAt : m.tableAt source = t := by
      rw [MemoryManager.tableAt, at_source]
      rfl
    have waited : m.completeTable (m.tableAt source) = none :=
      tableAt ▸ quiesced t source ((books.inverse t source).mpr at_source) written
    refine ⟨emptying.place room source, (books.place emptying.roles emptying.other usedLt).1,
      issuing.place emptying.roles usedLt waited, ?_⟩
    intro t' s located isWritten
    have complete : (m.place toZone source).completeTable = m.completeTable := by
      rw [MemoryManager.place, moveTable_eq]
      rfl
    have mapping : (m.place toZone source).mappingTable = Function.update m.mappingTable
        (m.tableAt source) (some (m.zoneMetas toZone).writePtr) := by
      rw [MemoryManager.place, moveTable_eq]
      rfl
    rw [complete]
    by_cases same : t' = m.tableAt source
    · rw [same]
      exact waited
    · rw [mapping, Function.update_of_ne same] at located
      apply quiesced t' s located
      rw [Written, place_zoneMetas, Function.update_of_ne emptying.other] at isWritten
      exact isWritten
  fill := fun ⟨emptying, books, issuing, quiesced⟩ written =>
    ⟨emptying.fill written, books.congr rfl rfl rfl books.clean,
      issuing.moved _ (Finset.subset_insert _ _), quiesced⟩
  back := fun ⟨emptying, books, issuing, quiesced⟩ room =>
    ⟨emptying.back room, books.congr rfl rfl rfl books.clean,
      issuing.moved _ (Finset.Subset.refl _), quiesced⟩

/-- The part that also holds where an operation stops. -/
structure Issued (device : Device) (origin : List Call) (m : MemoryManager) : Prop where
  disciplined : Disciplined device m.calls
  since : origin <:+ m.calls

theorem Issuing.issued (issuing : m.Issuing device origin) : m.Issued device origin :=
  ⟨issuing.disciplined, issuing.since⟩

/-- An emptied zone holds no table. -/
theorem Books.unused (books : m.Books device (some zone) []) (t : TableId) (s : Nat)
    (located : m.mappingTable t = some s) : ¬m.Written device zone s := by
  intro written
  have at_s := (books.inverse t s).mp located
  exact List.not_mem_nil ((books.mem_rest rfl).mpr ⟨written, by rw [at_s]; simp⟩)

theorem Issuing.rewriteZone (issuing : m.Issuing device origin) (roles : m.Roles device none)
    (books : m.Books device none []) (full : zone ∈ m.fullZone) :
    Ends
      (fun m' => m'.Roles device none ∧ zone ∈ m'.fullZone ∧ m'.Books device (some zone) [] ∧
        m'.Issuing device origin)
      (fun halt => halt.state.Issued device origin) (m.rewriteZone zone) := by
  obtain ⟨scanned, sameFull, sameReset⟩ := roles.scanZone zone
  have scanBooks := (books.scanZone roles full).1
  obtain ⟨issuing', waited⟩ := issuing.scanZone zone
  have emptying : (m.scanZone zone).2.Emptying device zone _ m.toReset none :=
    ⟨scanned, sameFull ▸ full, rfl, sameReset⟩
  refine ((relocating_issuing origin zone _ m.toReset).rewriteZone
    ⟨emptying, scanBooks, issuing', scanBooks.quiesced waited⟩).imp ?_ ?_
  · rintro m' ⟨emptied, books', issuing', -⟩
    exact ⟨emptied.roles, emptied.full, books', issuing'⟩
  · rintro halt ⟨-, rest, -, -, issuing', -⟩
    exact issuing'.issued

/-- A reset keeps the discipline. -/
theorem Issuing.resetZone (issuing : m.Issuing device origin) (roles : m.Roles device none)
    (books : m.Books device none []) (zone : Nat) (force : Bool) :
    Ends (·.Issuing device origin) (fun halt => halt.state.Issued device origin)
      (m.resetZone device zone force) := by
  simp only [MemoryManager.resetZone]
  split
  · exact issuing
  · rename_i notWritten
    have full : zone ∈ m.fullZone := (roles.full_iff zone (by simp)).mpr (Nat.not_lt.mp notWritten)
    simp only [if_pos full]
    split
    · split
      · exact issuing.issued
      · exact issuing
    · split
      · split
        · refine (issuing.rewriteZone roles books full).bind ?_
          rintro m' - ⟨roles', full', books', issuing'⟩
          exact issuing'.eraseZone roles' full' books'.unused
        · rename_i noValid
          obtain ⟨leaving, length⟩ := books.leave roles full
          rw [not_not.mp noValid] at length
          rw [List.eq_nil_of_length_eq_zero length] at leaving
          exact issuing.eraseZone roles full leaving.unused
      · exact issuing

theorem evictable_issuing (origin : List Call) (before : MemoryManager) :
    Evictable device (fun _ => True)
      (fun m => (m.Roles device none ∧ m.Books device none [] ∧ before.SameLive m) ∧
        m.Issuing device origin)
      (fun halt => halt.state.Issued device origin) where
  reset := by
    rintro m zone force ⟨holds, issuing⟩ -
    obtain ⟨roles, books, same⟩ := holds
    exact (((evictable_books before).reset ⟨roles, books, same⟩ trivial).and
      (issuing.resetZone roles books zone force)).imp (fun _ => id) fun _ both => both.2
  clear := fun ⟨holds, issuing⟩ =>
    ⟨(evictable_books before).clear holds, issuing.moved _ (Finset.Subset.refl _)⟩
  idle holds _ := holds.2.issued

/-! ## Writing -/

/-- A zone that becomes full leaves its open slot, and no other one does. -/
theorem Roles.rollZone_assigned (roles : m.Roles device none)
    (nonempty : m.emptyZone.empty = false) (which : m.openZone[m.whichZone]? = some zone) :
    ∃ full opened pool,
      (m.setMeta zone ((m.zoneMetas zone).grow 1)).rollZone zone =
          .ok { m.setMeta zone ((m.zoneMetas zone).grow 1) with
            fullZone := full, openZone := opened, emptyZone := pool } ∧
        m.fullZone ⊆ full ∧ ∀ (slot other : Nat), m.openZone[slot]? = some other →
          other ∈ full ∨ opened[slot]? = some other := by
  obtain ⟨⟨next, pool⟩, got⟩ := Option.isSome_iff_exists.mp (roles.wf.get_isSome nonempty)
  have nonempty' : (m.setMeta zone ((m.zoneMetas zone).grow 1)).emptyZone.empty = false :=
    nonempty
  have got' : (m.setMeta zone ((m.zoneMetas zone).grow 1)).emptyZone.get = some (next, pool) :=
    got
  simp only [MemoryManager.rollZone, nonempty', got', Bool.false_eq_true, if_false]
  split
  · refine ⟨_, _, _, rfl, Finset.subset_insert _ _, ?_⟩
    intro slot other isOpen
    by_cases here : slot = m.whichZone
    · subst here
      rw [which] at isOpen
      cases isOpen
      exact .inl (Finset.mem_insert_self _ _)
    · right
      change (m.openZone.set m.whichZone next)[slot]? = some other
      rw [List.getElem?_set_ne (Ne.symm here)]
      exact isOpen
  · exact ⟨_, _, _, rfl, Finset.Subset.refl _, fun _ _ => .inr⟩

/-- Zones may become full and leave their open slots. -/
theorem Assigned.rolled {worker : Nat} (assigned : m.Assigned worker zone)
    (grows : m.fullZone ⊆ m'.fullZone)
    (stays : ∀ (slot other : Nat), m.openZone[slot]? = some other →
      other ∈ m'.fullZone ∨ m'.openZone[slot]? = some other) : m'.Assigned worker zone := by
  rcases assigned with isFull | ⟨slot, slotLt, isOpen, isWorker⟩
  · exact .inl (grows isFull)
  · rcases stays slot zone isOpen with isFull | isOpen'
    · exact .inl isFull
    · exact .inr ⟨slot, slotLt, isOpen', isWorker⟩

/-- The pending writes of an open zone are left to the worker of its slot. -/
theorem Issuing.one_worker (issuing : m.Issuing device origin) (roles : m.Roles device none)
    (notFull : zone ∉ m.fullZone) {slot : Nat} (isOpen : m.openZone[slot]? = some zone)
    {ticket worker : Nat}
    (owner : (planOf device m.calls).owner ticket = some (worker, zone)) :
    worker = (slot + 1) % openZoneNum + 1 := by
  rcases issuing.assigned owner with isFull | ⟨other, -, isOpen', isWorker⟩
  · exact absurd isFull notFull
  · obtain ⟨slotLt, -⟩ := List.getElem?_eq_some_iff.mp isOpen
    have same : slot = other :=
      (List.getElem?_inj slotLt roles.open_nodup).mp (isOpen.trans isOpen'.symm)
    rw [isWorker, same]

/-- The next slot of a zone goes to a new table, and its write to a worker. -/
structure Enqueued (t : TableId) (zone worker : Nat) (m m' : MemoryManager) : Prop where
  metas : m'.zoneMetas = Function.update m.zoneMetas zone ((m.zoneMetas zone).grow 1)
  mapping : m'.mappingTable =
    Function.update m.mappingTable t (some (m.zoneMetas zone).writePtr)
  complete : m'.completeTable = Function.update m.completeTable t (some m.nextTicket)
  tickets : m'.nextTicket = m.nextTicket + 1
  calls : m'.calls = .enqueue worker m.nextTicket (m.zoneMetas zone).writePtr :: m.calls
  assigned : ∀ worker other, m.Assigned worker other → m'.Assigned worker other

namespace Enqueued

variable {t : TableId} {worker : Nat} (enqueued : Enqueued t zone worker m m')

include enqueued

theorem calls_eq (roles : m.Roles device hand) : m'.calls =
    .enqueue worker m.nextTicket (device.slot zone (m.zoneMetas zone).used) :: m.calls := by
  rw [enqueued.calls, (roles.placed zone).writePtr_eq]

theorem planOf_eq (roles : m.Roles device hand) (room : (m.zoneMetas zone).used < device.tables) :
    planOf device m'.calls = (planOf device m.calls).after
      (.enqueue worker m.nextTicket zone (m.zoneMetas zone).used) := by
  rw [enqueued.calls_eq roles, planOf, Call.request_enqueue room]

theorem owner_eq (roles : m.Roles device hand) (room : (m.zoneMetas zone).used < device.tables) :
    (planOf device m'.calls).owner =
      Function.update (planOf device m.calls).owner m.nextTicket (some (worker, zone)) := by
  rw [enqueued.planOf_eq roles room]
  rfl

theorem used_eq (roles : m.Roles device hand) (room : (m.zoneMetas zone).used < device.tables)
    (used : ∀ zone, (planOf device m.calls).used zone = (m.zoneMetas zone).used) (other : Nat) :
    (planOf device m'.calls).used other = (m'.zoneMetas other).used := by
  rw [enqueued.planOf_eq roles room, enqueued.metas]
  change Function.update (planOf device m.calls).used zone _ other = _
  by_cases same : other = zone
  · subst same
    rw [Function.update_self, Function.update_self, (roles.placed other).used_grow]
  · rw [Function.update_of_ne same, Function.update_of_ne same]
    exact used other

/-- A pending table is the new one with the new ticket, or an old one with an old ticket. -/
theorem pending_cases (issuing : m.Issuing device origin) {t' : TableId} {ticket : Nat}
    (isPending : m'.completeTable t' = some ticket) :
    t' = t ∧ ticket = m.nextTicket ∨
      t' ≠ t ∧ ticket ≠ m.nextTicket ∧ m.completeTable t' = some ticket := by
  rw [enqueued.complete] at isPending
  by_cases same : t' = t
  · rw [same, Function.update_self] at isPending
    exact .inl ⟨same, (Option.some.inj isPending).symm⟩
  · rw [Function.update_of_ne same] at isPending
    refine .inr ⟨same, ?_, isPending⟩
    rintro rfl
    obtain ⟨worker, zone, s, owner, -⟩ := issuing.pending t' _ isPending
    rw [issuing.fresh _ (Nat.le_refl _)] at owner
    cases owner

/-- A table that is pending stays so: it is not the new one, which was not stored before. -/
theorem complete_of_pending (issuing : m.Issuing device origin) (notLive : ¬m.Live t)
    {t' : TableId} {ticket : Nat} (isPending : m.completeTable t' = some ticket) :
    m'.completeTable t' = some ticket := by
  rw [enqueued.complete, Function.update_of_ne]
  · exact isPending
  · rintro rfl
    obtain ⟨worker, zone, s, -, located, -⟩ := issuing.pending t' ticket isPending
    exact notLive (by rw [Live, located]; rfl)

/-- Another pending table keeps its ticket, its slot and its worker. -/
theorem pending_of_ne (issuing : m.Issuing device origin) (roles : m.Roles device hand)
    (room : (m.zoneMetas zone).used < device.tables) {t' : TableId} {ticket : Nat}
    (differ : t' ≠ t) (ne : ticket ≠ m.nextTicket)
    (isPending : m.completeTable t' = some ticket) : ∃ worker zone s,
      (planOf device m'.calls).owner ticket = some (worker, zone) ∧
        m'.mappingTable t' = some s ∧ m'.Written device zone s ∧ m'.Assigned worker zone := by
  obtain ⟨worker', other, s, owner, located, isWritten, isAssigned⟩ :=
    issuing.pending t' ticket isPending
  refine ⟨worker', other, s, ?_, ?_, ?_, enqueued.assigned worker' other isAssigned⟩
  · rw [enqueued.owner_eq roles room, Function.update_of_ne ne]
    exact owner
  · rw [enqueued.mapping, Function.update_of_ne differ]
    exact located
  · exact (roles.written_grow enqueued.metas other s).mpr (.inl isWritten)

/-- The call is allowed: the zone has room, and all its tickets are with this worker. -/
theorem disciplined (issuing : m.Issuing device origin) (roles : m.Roles device hand)
    (lt : zone < device.zoneNum) (room : (m.zoneMetas zone).used < device.tables)
    (workerLt : worker < workerNum)
    (one : ∀ ticket other, (planOf device m.calls).owner ticket = some (other, zone) →
      other = worker) : Disciplined device m'.calls := by
  rw [enqueued.calls_eq roles]
  refine ⟨⟨workerLt, zone, lt, _, room, rfl⟩, ?_, issuing.disciplined⟩
  intro request isRequest
  rw [Call.request_enqueue room] at isRequest
  cases isRequest
  exact ⟨(issuing.used zone).symm, room, issuing.fresh _ (Nat.le_refl _), one⟩

end Enqueued

/-- The write of a new table is left to the worker of its zone. -/
theorem Issuing.enqueue (issuing : m.Issuing device origin) (roles : m.Roles device none)
    (lt : zone < device.zoneNum) (room : (m.zoneMetas zone).used < device.tables)
    {t : TableId} (notLive : ¬m.Live t) {worker : Nat} (workerLt : worker < workerNum)
    (one : ∀ ticket other, (planOf device m.calls).owner ticket = some (other, zone) →
      other = worker)
    (enqueued : Enqueued t zone worker m m') (mine : m'.Assigned worker zone) :
    m'.Issuing device origin := by
  have written := roles.written_grow enqueued.metas
  have owners := enqueued.owner_eq roles room
  constructor
  case disciplined => exact enqueued.disciplined issuing roles lt room workerLt one
  case since =>
    rw [enqueued.calls]
    exact issuing.since.trans (List.suffix_cons _ _)
  case used => exact enqueued.used_eq roles room issuing.used
  case fresh =>
    intro ticket le
    rw [enqueued.tickets] at le
    rw [owners, Function.update_of_ne (Nat.ne_of_gt le)]
    exact issuing.fresh ticket (Nat.le_of_succ_le le)
  case kept =>
    intro ticket worker' other owner
    rw [owners] at owner
    by_cases same : ticket = m.nextTicket
    · rw [same, enqueued.complete]
      exact ⟨t, Function.update_self ..⟩
    · rw [Function.update_of_ne same] at owner
      obtain ⟨t', isPending⟩ := issuing.kept ticket worker' other owner
      exact ⟨t', enqueued.complete_of_pending issuing notLive isPending⟩
  case pending =>
    intro t' ticket isPending
    rcases enqueued.pending_cases issuing isPending with ⟨rfl, rfl⟩ | ⟨differ, ne, before⟩
    · refine ⟨worker, zone, (m.zoneMetas zone).writePtr, ?_, ?_, ?_, mine⟩
      · rw [owners, Function.update_self]
      · rw [enqueued.mapping, Function.update_self]
      · exact (written zone _).mpr (.inr ⟨rfl, rfl⟩)
    · exact enqueued.pending_of_ne issuing roles room differ ne before
  case distinct =>
    intro first second ticket isPending isPending'
    rcases enqueued.pending_cases issuing isPending with ⟨rfl, rfl⟩ | ⟨-, ne, before⟩
    · rcases enqueued.pending_cases issuing isPending' with ⟨rfl, -⟩ | ⟨-, ne, -⟩
      · rfl
      · exact absurd rfl ne
    · rcases enqueued.pending_cases issuing isPending' with ⟨-, same⟩ | ⟨-, -, before'⟩
      · exact absurd same ne
      · exact issuing.distinct first second ticket before before'

/-- The write of a new table goes to the worker of the open slot whose turn it is. -/
theorem Issuing.appendTable (issuing : m.Issuing device origin) (roles : m.Roles device none)
    (nonempty : m.emptyZone.empty = false) {level num : Nat} (notLive : ¬m.Live (level, num)) :
    Ends (·.Issuing device origin) (fun halt => halt.state.Issued device origin)
      (m.appendTable level num) := by
  have whichLt : m.whichZone < m.openZone.length := roles.open_length ▸ roles.which_lt
  have which : m.openZone[m.whichZone]? = some (m.openZone.getD m.whichZone 0) := by
    rw [List.getD_eq_getElem _ _ whichLt, List.getElem?_eq_getElem whichLt]
  have mem := roles.getD_mem
  simp only [MemoryManager.appendTable]
  generalize m.openZone.getD m.whichZone 0 = zone at mem which ⊢
  obtain ⟨lt, notFull, room⟩ := roles.open mem
  obtain ⟨full, opened, pool, rollEq, grows, stays⟩ := roles.rollZone_assigned nonempty which
  rw [rollEq]
  change Ends _ _ (MemoryManager.enterTable _ level num _)
  rw [enterTable_eq]
  split
  · change Issued device origin _
    exact ⟨issuing.disciplined, issuing.since⟩
  · change Issuing device origin _
    have mine : m.Assigned ((m.whichZone + 1) % openZoneNum + 1) zone :=
      .inr ⟨m.whichZone, roles.which_lt, which, rfl⟩
    have workerLt : (m.whichZone + 1) % openZoneNum + 1 < workerNum :=
      Nat.succ_lt_succ (Nat.mod_lt _ (by decide))
    refine issuing.enqueue roles lt room notLive workerLt
      (fun _ _ owner => issuing.one_worker roles notFull which owner) ?_ (mine.rolled grows stays)
    exact
      { metas := rfl
        mapping := rfl
        complete := rfl
        tickets := rfl
        calls := rfl
        assigned := fun _ _ before => before.rolled grows stays }

theorem Issuing.writeTable (issuing : m.Issuing device origin) (roles : m.Roles device none)
    (books : m.Books device none []) (iter : Finset Nat → List Nat) (fuel : Nat)
    {level num : Nat} (notLive : ¬m.Live (level, num)) :
    Ends (·.Issuing device origin) (fun halt => halt.state.Issued device origin)
      (m.writeTable device iter fuel level num) := by
  have loop : Ends _ _ (MemoryManager.evictLoop device iter fuel m) :=
    (evictable_issuing origin m).evictLoop ⟨⟨roles, books, fun _ => Iff.rfl⟩, issuing⟩
      fun _ _ => trivial
  refine loop.bind ?_
  rintro m' - ⟨⟨⟨roles', -, same⟩, issuing'⟩, enough⟩
  have zonesPos := device.zoneNum_pos
  have nonempty : m'.emptyZone.empty = false := decide_eq_false (by omega)
  exact issuing'.appendTable roles' nonempty fun live => notLive ((same _).mp live)

/-! ## Reading and deleting -/

theorem Issuing.reads (issuing : m.Issuing device origin) {level num : Nat}
    (live : m.Live (level, num)) (offset length : Nat) :
    Ends (·.Issuing device origin) (fun halt => halt.state.Issued device origin)
        (m.getValue level num offset length) ∧
      Ends (·.Issuing device origin) (fun halt => halt.state.Issued device origin)
        (m.readTable level num offset length) := by
  by_cases known : level < m.levels
  · have waited := issuing.wait (level, num)
    have same := live.update_location
    rw [getValue_eq m known, readTable_eq m known, same]
    constructor
    · have silent : ∀ interval : List (Nat × Nat),
          ∀ call ∈ (interval.map readCall).reverse, call.Silent := by
        intro interval call mem
        obtain ⟨it, -, rfl⟩ := List.mem_map.mp (List.mem_reverse.mp mem)
        exact trivial
      change Issuing device origin _
      exact waited.frame _ rfl (silent _) (fun _ => rfl) rfl rfl (fun _ _ => rfl) fun _ _ => id
    · change Issuing device origin _
      exact waited.frame [tableCall _ offset length] rfl (List.forall_mem_singleton.mpr trivial)
        (fun _ => rfl) rfl rfl (fun _ _ => rfl) fun _ _ => id
  · simp only [MemoryManager.getValue, MemoryManager.readTable, Nat.not_lt.mp known, if_true]
    exact ⟨issuing.issued, issuing.issued⟩

/-- A table whose write was waited for may be deleted. -/
theorem Issuing.dropTable (issuing : m.Issuing device origin) {t : TableId}
    (waited : m.completeTable t = none) (s : Nat) :
    (m.dropTable device t s).Issuing device origin := by
  obtain ⟨new, calls, silent⟩ : ∃ new, (m.dropTable device t s).calls = new ++ m.calls ∧
      ∀ call ∈ new, call.Silent := by
    simp only [MemoryManager.dropTable]
    split
    · exact ⟨[.zoneErr .noTable], rfl, List.forall_mem_singleton.mpr trivial⟩
    · exact ⟨[], rfl, List.forall_mem_nil _⟩
  refine issuing.frame new calls silent ?_ rfl rfl ?_ fun _ _ => id
  · exact dropTable_used m device t s
  · intro t' isPending
    apply Function.update_of_ne
    rintro rfl
    exact isPending waited

theorem Issuing.deleteTable (issuing : m.Issuing device origin) (level num : Nat) :
    Ends (·.Issuing device origin) (fun halt => halt.state.Issued device origin)
      (m.deleteTable device level num) := by
  by_cases known : level < m.levels
  · rw [deleteTable_eq m device known]
    split
    · exact issuing.issued
    · rename_i notPending
      rw [Bool.not_eq_true, Option.isSome_eq_false_iff, Option.isNone_iff_eq_none] at notPending
      cases m.mappingTable (level, num) with
      | none => exact issuing
      | some s => exact issuing.dropTable notPending s
  · simp only [MemoryManager.deleteTable, Nat.not_lt.mp known, if_true]
    exact issuing.issued

/-- Every operation of the store keeps the discipline, also where it stops. -/
theorem Issuing.exec (issuing : m.Issuing device origin) (roles : m.Roles device none)
    (books : m.Books device none []) {op : Op} (allowed : m.Allowed op)
    (iter : Finset Nat → List Nat) (fuel : Nat) :
    Ends (·.Issuing device origin) (fun halt => halt.state.Issued device origin)
      (m.exec device iter fuel op) := by
  have before : (m.Roles device none ∧ m.Books device none [] ∧ m.SameLive m) ∧
      m.Issuing device origin := ⟨⟨roles, books, fun _ => Iff.rfl⟩, issuing⟩
  cases op with
  | writeTable level num => exact issuing.writeTable roles books iter fuel allowed.1
  | getValue level num offset length => exact (issuing.reads allowed offset length).1
  | readTable level num offset length => exact (issuing.reads allowed offset length).2
  | deleteTable level num => exact issuing.deleteTable level num
  | tryReset =>
      exact ((evictable_issuing origin m).tryReset before fun _ _ => trivial).imp
        (fun _ after => after.2) fun _ => id
  | evictZone =>
      exact ((evictable_issuing origin m).evictZone before fun _ _ => trivial).imp
        (fun _ after => after.2) fun _ => id

/-! ## Reachable states -/

theorem issuing_new (built : new device = some m) : m.Issuing device [] := by
  simp only [new, Option.bind_eq_bind, Option.bind_eq_some_iff] at built
  obtain ⟨⟨zones, pool⟩, -, done⟩ := built
  cases done
  exact
    { disciplined := trivial
      since := List.suffix_refl _
      used := fun _ => by simp [planOf, ZoneMeta.used]
      fresh := fun _ _ => rfl
      kept := fun _ _ _ owner => by cases owner
      pending := fun _ _ isPending => by cases isPending
      distinct := fun _ _ _ isPending => by cases isPending }

/-- The record may be cut anywhere. -/
theorem Issuing.restart (issuing : m.Issuing device origin) : m.Issuing device m.calls :=
  { issuing with since := List.suffix_refl _ }

theorem issuing_of_reachable (reachable : (storeSystem device).Reachable m) :
    m.Issuing device m.calls := by
  refine System.invariant_of_reachable_with
    (K := fun m => m.Roles device none ∧ m.Books device none [])
    (P := fun m => m.Issuing device m.calls) (fun _ => books_of_reachable) ?_ ?_ reachable
  · intro m built
    exact (issuing_new built).restart
  · rintro m op m' ⟨roles, books⟩ issuing ⟨allowed, iter, fuel, -, ok⟩
    exact ((issuing.exec roles books allowed iter fuel).of_ok ok).restart

end MemoryManager

end ZnsLsm.Pool
