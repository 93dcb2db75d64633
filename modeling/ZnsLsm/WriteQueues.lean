import Mathlib.Algebra.BigOperators.Group.Finset.Basic
import Mathlib.Data.List.Range
import Mathlib.Logic.Function.Basic

/-!
# Sequential zones written through queues

Every zone is written slot by slot and is reset only when it is full.  An issuer hands
out slots: it writes some of them itself and puts the writes of others into queues,
each of which is served in order by its own worker.  The issuer sees only which writes
it has not waited for.

`Plan` is what the issuer knows, `Machine` is what has been carried out.  If the issuer
keeps the writes of a zone in one queue, and touches a zone otherwise only after it has
waited for them, then every write finds its zone filled up to its own slot, however
the workers are scheduled.
-/

namespace ZnsLsm.WriteQueues

universe u v w

/-- A write that waits in a queue. -/
structure Entry (τ : Type v) (ζ : Type w) where
  ticket : τ
  zone : ζ
  index : Nat

/-- The requests of the issuer. -/
inductive Request (ω : Type u) (τ : Type v) (ζ : Type w)
  | enqueue (worker : ω) (ticket : τ) (zone : ζ) (index : Nat)
  | wait (ticket : τ)
  | write (zone : ζ) (index : Nat)
  | reset (zone : ζ)

/-- The slots handed out, and the queue and zone of the writes not waited for. -/
structure Plan (ω : Type u) (τ : Type v) (ζ : Type w) where
  used : ζ → Nat
  owner : τ → Option (ω × ζ)

/-- The slots written, and the queues. -/
structure Machine (ω : Type u) (τ : Type v) (ζ : Type w) where
  count : ζ → Nat
  queue : ω → List (Entry τ ζ)

variable {ω : Type u} {τ : Type v} {ζ : Type w}

/-- The issuer has waited for all writes to the zone. -/
def Plan.Settled (plan : Plan ω τ ζ) (zone : ζ) : Prop :=
  ∀ ticket worker, plan.owner ticket ≠ some (worker, zone)

/-- The discipline of the issuer. -/
def Plan.Allows (capacity : Nat) (plan : Plan ω τ ζ) : Request ω τ ζ → Prop
  | .enqueue worker ticket zone index =>
      index = plan.used zone ∧ index < capacity ∧ plan.owner ticket = none ∧
        ∀ other worker', plan.owner other = some (worker', zone) → worker' = worker
  | .wait _ => True
  | .write zone index => index = plan.used zone ∧ index < capacity ∧ plan.Settled zone
  | .reset zone => plan.used zone = capacity ∧ plan.Settled zone

/-- A request can be carried out; only waiting may have to be put off. -/
def Machine.Ready (machine : Machine ω τ ζ) : Request ω τ ζ → Prop
  | .wait ticket => ∀ worker, ∀ entry ∈ machine.queue worker, entry.ticket ≠ ticket
  | _ => True

variable [DecidableEq ζ]

/-- The slots of a zone that a queue is going to write, in order. -/
def indices (zone : ζ) (entries : List (Entry τ ζ)) : List Nat :=
  (entries.filter (·.zone = zone)).map Entry.index

@[simp]
theorem indices_nil (zone : ζ) : indices zone ([] : List (Entry τ ζ)) = [] :=
  rfl

@[simp]
theorem indices_cons_self (entry : Entry τ ζ) (rest : List (Entry τ ζ)) :
    indices entry.zone (entry :: rest) = entry.index :: indices entry.zone rest := by
  simp [indices]

@[simp]
theorem indices_cons_of_ne {zone : ζ} {entry : Entry τ ζ} (ne : entry.zone ≠ zone)
    (rest : List (Entry τ ζ)) : indices zone (entry :: rest) = indices zone rest := by
  simp [indices, ne]

@[simp]
theorem indices_append (zone : ζ) (entries entries' : List (Entry τ ζ)) :
    indices zone (entries ++ entries') = indices zone entries ++ indices zone entries' := by
  simp [indices]

@[simp]
theorem indices_eq_nil {zone : ζ} {entries : List (Entry τ ζ)} :
    indices zone entries = [] ↔ ∀ entry ∈ entries, entry.zone ≠ zone := by
  simp [indices]

/-- Plan and machine agree: the queued writes of a zone are in one queue, and they are
those of the slots between the written and the handed out ones, in order. -/
structure Synced (capacity : Nat) (plan : Plan ω τ ζ) (machine : Machine ω τ ζ) : Prop where
  owned : ∀ worker, ∀ entry ∈ machine.queue worker,
    plan.owner entry.ticket = some (worker, entry.zone)
  line : ∀ zone, ∃ worker,
    indices zone (machine.queue worker) =
        List.range' (machine.count zone) (plan.used zone - machine.count zone) ∧
      ∀ other, other ≠ worker → indices zone (machine.queue other) = []
  count_le : ∀ zone, machine.count zone ≤ plan.used zone
  used_le : ∀ zone, plan.used zone ≤ capacity

section Synced

variable {capacity : Nat} {plan : Plan ω τ ζ} {machine : Machine ω τ ζ}

/-! ## Requests are in place -/

/-- A settled zone has no write in any queue. -/
theorem Synced.not_queued (synced : Synced capacity plan machine) {zone : ζ}
    (settled : plan.Settled zone) (worker : ω) :
    ∀ entry ∈ machine.queue worker, entry.zone ≠ zone := by
  rintro entry mem rfl
  exact settled _ worker (synced.owned worker entry mem)

/-- All slots handed out of a settled zone are written. -/
theorem Synced.count_eq (synced : Synced capacity plan machine) {zone : ζ}
    (settled : plan.Settled zone) : machine.count zone = plan.used zone := by
  obtain ⟨worker, line, -⟩ := synced.line zone
  rw [indices_eq_nil.mpr (synced.not_queued settled worker)] at line
  have none_left := congrArg List.length line
  rw [List.length_nil, List.length_range'] at none_left
  exact Nat.le_antisymm (synced.count_le zone) (Nat.le_of_sub_eq_zero none_left.symm)

/-- The first write of a queue is the next one of its zone. -/
theorem Synced.head (synced : Synced capacity plan machine) {worker : ω} {entry : Entry τ ζ}
    {rest : List (Entry τ ζ)} (queued : machine.queue worker = entry :: rest) :
    entry.index = machine.count entry.zone ∧ entry.index < plan.used entry.zone ∧
      indices entry.zone rest =
        List.range' (entry.index + 1) (plan.used entry.zone - (entry.index + 1)) ∧
      ∀ other, other ≠ worker → indices entry.zone (machine.queue other) = [] := by
  obtain ⟨worker', line, others⟩ := synced.line entry.zone
  obtain rfl : worker' = worker := by
    by_contra ne
    have none := others worker (Ne.symm ne)
    rw [queued, indices_cons_self] at none
    cases none
  rw [queued, indices_cons_self] at line
  cases left : plan.used entry.zone - machine.count entry.zone with
  | zero =>
      rw [left] at line
      cases line
  | succ more =>
      rw [left, List.range'_succ] at line
      obtain ⟨first, next⟩ := List.cons.inj line
      have step : plan.used entry.zone - (entry.index + 1) = more := by omega
      rw [first] at step ⊢
      rw [step]
      exact ⟨rfl, by omega, next, others⟩

/-- A write of the issuer is the next one of its zone. -/
theorem Synced.write (synced : Synced capacity plan machine) {zone : ζ} {index : Nat}
    (allowed : plan.Allows capacity (.write zone index)) :
    index = machine.count zone ∧ index < capacity := by
  obtain ⟨next, lt, settled⟩ := allowed
  exact ⟨next.trans (synced.count_eq settled).symm, lt⟩

/-- A zone to be reset is full. -/
theorem Synced.reset (synced : Synced capacity plan machine) {zone : ζ}
    (allowed : plan.Allows capacity (.reset zone)) :
    machine.count zone = capacity ∧
      ∀ worker, ∀ entry ∈ machine.queue worker, entry.zone ≠ zone :=
  ⟨(synced.count_eq allowed.2).trans allowed.1, synced.not_queued allowed.2⟩

/-- The writes of a zone that only one worker has in hand are in the queue of that worker. -/
theorem Synced.line_of_one (synced : Synced capacity plan machine) {zone : ζ} {worker : ω}
    (one : ∀ ticket other, plan.owner ticket = some (other, zone) → other = worker) :
    indices zone (machine.queue worker) =
        List.range' (machine.count zone) (plan.used zone - machine.count zone) ∧
      ∀ other, other ≠ worker → indices zone (machine.queue other) = [] := by
  obtain ⟨worker', line, others⟩ := synced.line zone
  by_cases same : worker' = worker
  · subst same
    exact ⟨line, others⟩
  · have empty : indices zone (machine.queue worker') = [] := by
      apply indices_eq_nil.mpr
      rintro entry mem rfl
      exact same (one _ _ (synced.owned worker' entry mem))
    refine ⟨(others worker (Ne.symm same)).trans (empty.symm.trans line), ?_⟩
    intro other _
    by_cases isLine : other = worker'
    · exact isLine ▸ empty
    · exact others other isLine

/-- Nothing is queued for a settled zone, so the issuer may change it. -/
theorem Synced.settle (synced : Synced capacity plan machine) {zone : ζ}
    (settled : plan.Settled zone) {slots : Nat} (le : slots ≤ capacity) :
    Synced capacity { plan with used := Function.update plan.used zone slots }
      { machine with count := Function.update machine.count zone slots } where
  owned := synced.owned
  line zone' := by
    obtain ⟨worker, line, others⟩ := synced.line zone'
    refine ⟨worker, ?_, others⟩
    by_cases same : zone' = zone
    · subst same
      simp only [Function.update_self, Nat.sub_self, List.range'_zero]
      exact indices_eq_nil.mpr (synced.not_queued settled worker)
    · simp only [Function.update_of_ne same]
      exact line
  count_le zone' := by
    by_cases same : zone' = zone
    · subst same
      simp only [Function.update_self, Nat.le_refl]
    · simp only [Function.update_of_ne same]
      exact synced.count_le zone'
  used_le zone' := by
    by_cases same : zone' = zone
    · subst same
      simp only [Function.update_self]
      exact le
    · simp only [Function.update_of_ne same]
      exact synced.used_le zone'

/-- Nothing is handed out and nothing is written at first. -/
theorem synced_empty [Nonempty ω] (capacity : Nat) :
    Synced capacity (⟨fun _ => 0, fun _ => none⟩ : Plan ω τ ζ) ⟨fun _ => 0, fun _ => []⟩ where
  owned _ _ mem := by cases mem
  line _ := ⟨Classical.arbitrary ω, rfl, fun _ _ => rfl⟩
  count_le _ := Nat.le_refl 0
  used_le _ := Nat.zero_le capacity

end Synced

/-! ## Steps keep plan and machine in agreement -/

section Steps

variable [DecidableEq ω] [DecidableEq τ]

def Plan.after (plan : Plan ω τ ζ) : Request ω τ ζ → Plan ω τ ζ
  | .enqueue worker ticket zone index =>
      { used := Function.update plan.used zone (index + 1)
        owner := Function.update plan.owner ticket (some (worker, zone)) }
  | .wait ticket => { plan with owner := Function.update plan.owner ticket none }
  | .write zone index => { plan with used := Function.update plan.used zone (index + 1) }
  | .reset zone => { plan with used := Function.update plan.used zone 0 }

/-- What a request that is in place changes. -/
def Machine.after (machine : Machine ω τ ζ) : Request ω τ ζ → Machine ω τ ζ
  | .enqueue worker ticket zone index =>
      { machine with
        queue := Function.update machine.queue worker
          (machine.queue worker ++ [⟨ticket, zone, index⟩]) }
  | .wait _ => machine
  | .write zone index =>
      { machine with count := Function.update machine.count zone (index + 1) }
  | .reset zone => { machine with count := Function.update machine.count zone 0 }

/-- A worker carries out the first write of its queue. -/
def Machine.work (machine : Machine ω τ ζ) (worker : ω) (entry : Entry τ ζ)
    (rest : List (Entry τ ζ)) : Machine ω τ ζ where
  count := Function.update machine.count entry.zone (entry.index + 1)
  queue := Function.update machine.queue worker rest

variable {capacity : Nat} {plan : Plan ω τ ζ} {machine : Machine ω τ ζ}

omit [DecidableEq ω] in
/-- A fresh ticket leaves the queued writes with their workers. -/
theorem Synced.owned_update (synced : Synced capacity plan machine) {worker other : ω}
    {ticket : τ} {zone : ζ} {entry : Entry τ ζ} (fresh : plan.owner ticket = none)
    (mem : entry ∈ machine.queue other) :
    Function.update plan.owner ticket (some (worker, zone)) entry.ticket =
      some (other, entry.zone) := by
  have owned := synced.owned other entry mem
  rw [Function.update_of_ne]
  · exact owned
  · rintro rfl
    rw [fresh] at owned
    cases owned

theorem Synced.enqueue (synced : Synced capacity plan machine) {worker : ω} {ticket : τ}
    {zone : ζ} {index : Nat}
    (allowed : plan.Allows capacity (.enqueue worker ticket zone index)) :
    Synced capacity (plan.after (.enqueue worker ticket zone index))
      (machine.after (.enqueue worker ticket zone index)) := by
  obtain ⟨rfl, lt, fresh, one⟩ := allowed
  have queue_eq : ∀ zone' other, zone' ≠ zone ∨ other ≠ worker →
      indices zone' ((machine.after (.enqueue worker ticket zone (plan.used zone))).queue other) =
        indices zone' (machine.queue other) := by
    intro zone' other differ
    by_cases same : other = worker
    · subst same
      have ne : zone ≠ zone' := Ne.symm (differ.resolve_right (· rfl))
      have skipped : indices zone' [(⟨ticket, zone, plan.used zone⟩ : Entry τ ζ)] = [] :=
        indices_cons_of_ne ne []
      simp only [Machine.after, Function.update_self, indices_append, skipped, List.append_nil]
    · simp only [Machine.after, Function.update_of_ne same]
  constructor
  · intro other entry mem
    by_cases same : other = worker
    · subst same
      simp only [Machine.after, Function.update_self, List.mem_append,
        List.mem_singleton] at mem
      rcases mem with mem | rfl
      · exact synced.owned_update fresh mem
      · exact Function.update_self ..
    · simp only [Machine.after, Function.update_of_ne same] at mem
      exact synced.owned_update fresh mem
  · intro zone'
    by_cases same : zone' = zone
    · subst same
      obtain ⟨mine, empty⟩ := synced.line_of_one one
      have grown : plan.used zone' + 1 - machine.count zone' =
          plan.used zone' - machine.count zone' + 1 :=
        Nat.sub_add_comm (synced.count_le zone')
      have last : machine.count zone' + (plan.used zone' - machine.count zone') =
          plan.used zone' := Nat.add_sub_cancel' (synced.count_le zone')
      refine ⟨worker, ?_, ?_⟩
      · simp only [Machine.after, Plan.after, Function.update_self, indices_append, mine,
          grown, List.range'_1_concat, last]
        simp [indices]
      · intro other ne
        rw [queue_eq zone' other (.inr ne)]
        exact empty other ne
    · obtain ⟨worker', line, others⟩ := synced.line zone'
      refine ⟨worker', ?_, ?_⟩
      · rw [queue_eq zone' worker' (.inl same), line]
        simp only [Machine.after, Plan.after, Function.update_of_ne same]
      · intro other ne
        rw [queue_eq zone' other (.inl same)]
        exact others other ne
  · intro zone'
    have le := synced.count_le zone'
    by_cases same : zone' = zone
    · subst same
      simp only [Machine.after, Plan.after, Function.update_self]
      exact Nat.le_succ_of_le le
    · simp only [Machine.after, Plan.after, Function.update_of_ne same]
      exact le
  · intro zone'
    by_cases same : zone' = zone
    · subst same
      simp only [Plan.after, Function.update_self]
      exact lt
    · simp only [Plan.after, Function.update_of_ne same]
      exact synced.used_le zone'

theorem Synced.wait (synced : Synced capacity plan machine) {ticket : τ}
    (ready : machine.Ready (.wait ticket)) :
    Synced capacity (plan.after (.wait ticket)) (machine.after (.wait ticket)) where
  owned worker entry mem := by
    simp only [Plan.after]
    rw [Function.update_of_ne (ready worker entry mem)]
    exact synced.owned worker entry mem
  line := synced.line
  count_le := synced.count_le
  used_le := synced.used_le

/-- Every request of the discipline that is carried out keeps plan and machine in
agreement. -/
theorem Synced.perform (synced : Synced capacity plan machine) {request : Request ω τ ζ}
    (allowed : plan.Allows capacity request) (ready : machine.Ready request) :
    Synced capacity (plan.after request) (machine.after request) := by
  cases request with
  | enqueue worker ticket zone index => exact synced.enqueue allowed
  | wait ticket => exact synced.wait ready
  | write zone index => exact synced.settle allowed.2.2 allowed.2.1
  | reset zone => exact synced.settle allowed.2 (Nat.zero_le capacity)

omit [DecidableEq τ] in
/-- Every step of a worker keeps plan and machine in agreement. -/
theorem Synced.work (synced : Synced capacity plan machine) {worker : ω} {entry : Entry τ ζ}
    {rest : List (Entry τ ζ)} (queued : machine.queue worker = entry :: rest) :
    Synced capacity plan (machine.work worker entry rest) := by
  obtain ⟨-, lt, next, none⟩ := synced.head queued
  constructor
  · intro other entry' mem
    by_cases same : other = worker
    · subst same
      simp only [Machine.work, Function.update_self] at mem
      apply synced.owned
      rw [queued]
      exact List.mem_cons_of_mem entry mem
    · simp only [Machine.work, Function.update_of_ne same] at mem
      exact synced.owned other entry' mem
  · intro zone
    by_cases same : zone = entry.zone
    · subst same
      refine ⟨worker, ?_, ?_⟩
      · simp only [Machine.work, Function.update_self]
        exact next
      · intro other ne
        simp only [Machine.work, Function.update_of_ne ne]
        exact none other ne
    · obtain ⟨worker', line, others⟩ := synced.line zone
      have same_indices : ∀ other, indices zone ((machine.work worker entry rest).queue other) =
          indices zone (machine.queue other) := by
        intro other
        by_cases isWorker : other = worker
        · subst isWorker
          rw [queued, indices_cons_of_ne (Ne.symm same)]
          simp only [Machine.work, Function.update_self]
        · simp only [Machine.work, Function.update_of_ne isWorker]
      refine ⟨worker', ?_, ?_⟩
      · rw [same_indices, line]
        simp only [Machine.work, Function.update_of_ne same]
      · intro other ne
        rw [same_indices]
        exact others other ne
  · intro zone
    by_cases same : zone = entry.zone
    · subst same
      simp only [Machine.work, Function.update_self]
      exact lt
    · simp only [Machine.work, Function.update_of_ne same]
      exact synced.count_le zone
  · exact synced.used_le

end Steps

/-! ## Counting slots -/

/-- A sum after one of its terms has changed. -/
theorem sum_update {ι : Type*} [DecidableEq ι] (f : ι → Nat) {places : Finset ι} {place : ι}
    (mem : place ∈ places) (value : Nat) :
    (∑ other ∈ places, Function.update f place value other) + f place =
      (∑ other ∈ places, f other) + value := by
  have rest : ∑ other ∈ places.erase place, Function.update f place value other =
      ∑ other ∈ places.erase place, f other :=
    Finset.sum_congr rfl fun other isOther =>
      Function.update_of_ne (Finset.ne_of_mem_erase isOther) ..
  rw [← Finset.add_sum_erase _ _ mem, rest, Function.update_self, ← Finset.add_sum_erase _ f mem]
  omega

/-- The same for a sum over what the places hold. -/
theorem sum_comp_update {ι β : Type*} [DecidableEq ι] (size : β → Nat) (f : ι → β)
    {places : Finset ι} {place : ι} (mem : place ∈ places) (value : β) :
    (∑ other ∈ places, size (Function.update f place value other)) + size (f place) =
      (∑ other ∈ places, size (f other)) + size value := by
  rw [Finset.sum_congr rfl fun other _ => Function.apply_update (fun _ => size) f place value other]
  exact sum_update (fun other => size (f other)) mem (size value)

/-- The slots that a request hands out. -/
def Request.slots : Request ω τ ζ → Nat
  | .enqueue _ _ _ _ => 1
  | .wait _ => 0
  | .write _ _ => 1
  | .reset _ => 0

/-- The zones that a request empties. -/
def Request.resets : Request ω τ ζ → Nat
  | .reset _ => 1
  | _ => 0

/-- The request is for a zone among these. -/
def Request.In (zones : Finset ζ) : Request ω τ ζ → Prop
  | .enqueue _ _ zone _ => zone ∈ zones
  | .wait _ => True
  | .write zone _ => zone ∈ zones
  | .reset zone => zone ∈ zones

/-- A reset frees as many slots as a zone has, and nothing else frees slots. -/
theorem Plan.sum_after [DecidableEq τ] {capacity : Nat} {plan : Plan ω τ ζ}
    {request : Request ω τ ζ} (allows : plan.Allows capacity request) {zones : Finset ζ}
    (inside : request.In zones) :
    (∑ zone ∈ zones, (plan.after request).used zone) + capacity * request.resets =
      (∑ zone ∈ zones, plan.used zone) + request.slots := by
  cases request with
  | enqueue worker ticket zone index =>
      obtain ⟨rfl, -⟩ := allows
      have sum := sum_update plan.used inside (plan.used zone + 1)
      simp only [Plan.after, Request.resets, Request.slots]
      omega
  | wait ticket => simp [Plan.after, Request.resets, Request.slots]
  | write zone index =>
      obtain ⟨rfl, -⟩ := allows
      have sum := sum_update plan.used inside (plan.used zone + 1)
      simp only [Plan.after, Request.resets, Request.slots]
      omega
  | reset zone =>
      have sum := sum_update plan.used inside 0
      rw [allows.1] at sum
      simp only [Plan.after, Request.resets, Request.slots]
      omega

end ZnsLsm.WriteQueues
