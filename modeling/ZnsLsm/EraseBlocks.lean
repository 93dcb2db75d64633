import Mathlib.Data.List.Nodup
import Mathlib.Data.Nat.Count
import Mathlib.Logic.Function.Basic

/-!
# Media that are erased by the block

The pages of a block are programmed in order, each once, and only a whole block is made
blank again.  A layout spreads the pages of zones over such blocks.  If every page of a zone
comes right after the earlier pages of its block, and no two zones share a block, then
filling the zones page by page and emptying full ones keeps to the rules of the medium.
-/

namespace ZnsLsm.EraseBlocks

universe u

inductive Command (β : Type u)
  | program (block : β) (page : Nat)
  | read (block : β) (page : Nat)
  | erase (block : β)
  deriving DecidableEq, Repr

/-- How many pages of a block are programmed, and how often it was erased. -/
structure Medium (β : Type u) where
  programmed : β → Nat
  erased : β → Nat

namespace Medium

variable {β : Type u}

/-- The new medium. -/
def blank : Medium β where
  programmed _ := 0
  erased _ := 0

/-- Only the first blank page of a block may be programmed, only programmed pages may be
read, and only blocks without blank pages may be erased. -/
def Legal (perBlock : Nat) (medium : Medium β) : Command β → Prop
  | .program block page => page = medium.programmed block ∧ page < perBlock
  | .read block page => page < medium.programmed block
  | .erase block => medium.programmed block = perBlock

variable [DecidableEq β]

def after (medium : Medium β) : Command β → Medium β
  | .program block page =>
      { medium with programmed := Function.update medium.programmed block (page + 1) }
  | .read _ _ => medium
  | .erase block =>
      { programmed := Function.update medium.programmed block 0
        erased := Function.update medium.erased block (medium.erased block + 1) }

def run (medium : Medium β) (commands : List (Command β)) : Medium β :=
  commands.foldl after medium

/-- Every command is legal in its turn. -/
def LegalAll (perBlock : Nat) : Medium β → List (Command β) → Prop
  | _, [] => True
  | medium, command :: rest =>
      medium.Legal perBlock command ∧ LegalAll perBlock (medium.after command) rest

variable {perBlock : Nat} {medium : Medium β} {commands : List (Command β)}

@[simp]
theorem run_append (medium : Medium β) (first second : List (Command β)) :
    medium.run (first ++ second) = (medium.run first).run second :=
  List.foldl_append

@[simp]
theorem legalAll_append {first second : List (Command β)} :
    medium.LegalAll perBlock (first ++ second) ↔
      medium.LegalAll perBlock first ∧ (medium.run first).LegalAll perBlock second := by
  induction first generalizing medium with
  | nil => simp only [List.nil_append, LegalAll, true_and, run, List.foldl_nil]
  | cons command first ih =>
      simp only [List.cons_append, LegalAll, ih, and_assoc]
      rfl

/-- Reading changes nothing, so the reads of a list are judged one by one. -/
theorem legalAll_of_reads (reads : ∀ command ∈ commands, ∃ block page,
      command = .read block page ∧ page < medium.programmed block) :
    medium.LegalAll perBlock commands ∧ medium.run commands = medium := by
  induction commands with
  | nil => exact ⟨trivial, rfl⟩
  | cons command commands ih =>
      obtain ⟨block, page, rfl, lt⟩ := reads _ List.mem_cons_self
      obtain ⟨legal, same⟩ := ih fun other mem => reads other (List.mem_cons_of_mem _ mem)
      exact ⟨⟨lt, legal⟩, same⟩

/-- Erasing some blocks, each once. -/
theorem run_erase {blocks : List β} (once : blocks.Nodup) (block : β) :
    (medium.run (blocks.map .erase)).programmed block =
        (if block ∈ blocks then 0 else medium.programmed block) ∧
      (medium.run (blocks.map .erase)).erased block =
        (if block ∈ blocks then medium.erased block + 1 else medium.erased block) := by
  induction blocks generalizing medium with
  | nil => simp only [List.map_nil, run, List.foldl_nil, List.not_mem_nil, if_false, and_self]
  | cons first blocks ih =>
      obtain ⟨notMem, once⟩ := List.nodup_cons.mp once
      obtain ⟨programmed, erased⟩ := @ih (medium.after (.erase first)) once
      change (run (medium.after (.erase first)) _).programmed block = _ ∧
        (run (medium.after (.erase first)) _).erased block = _
      rw [programmed, erased]
      by_cases same : block = first
      · subst same
        simp only [notMem, if_false, List.mem_cons_self, if_true, after, Function.update_self,
          and_self]
      · simp only [List.mem_cons, same, false_or, after, Function.update_of_ne same, and_self]

theorem legalAll_erase {blocks : List β} (once : blocks.Nodup)
    (full : ∀ block ∈ blocks, medium.programmed block = perBlock) :
    medium.LegalAll perBlock (blocks.map .erase) := by
  induction blocks generalizing medium with
  | nil => exact trivial
  | cons first blocks ih =>
      obtain ⟨notMem, once⟩ := List.nodup_cons.mp once
      refine ⟨full first List.mem_cons_self, ih once ?_⟩
      intro block mem
      have ne : block ≠ first := by
        rintro rfl
        exact notMem mem
      change Function.update medium.programmed first 0 block = perBlock
      rw [Function.update_of_ne ne]
      exact full block (List.mem_cons_of_mem _ mem)

end Medium

/-! ## Zones on the medium -/

/-- Zones of equally many pages, each on blocks of its own; every page is the next one of
its block. -/
structure Layout (β : Type u) [DecidableEq β] where
  zones : Nat
  pages : Nat
  perBlock : Nat
  block : Nat → Nat → β
  page : Nat → Nat → Nat
  inTurn : ∀ zone < zones, ∀ n < pages,
    page zone n = Nat.count (fun k => block zone k = block zone n) n
  full : ∀ zone < zones, ∀ n < pages,
    Nat.count (fun k => block zone k = block zone n) pages = perBlock
  apart : ∀ zone < zones, ∀ n < pages, ∀ zone' < zones, ∀ n' < pages,
    block zone n = block zone' n' → zone = zone'

namespace Layout

variable {β : Type u} [DecidableEq β] (layout : Layout β)

/-- The commands that program `more` pages of a zone from page `first` on. -/
def fill (zone first more : Nat) : List (Command β) :=
  (List.range' first more).map fun n => .program (layout.block zone n) (layout.page zone n)

/-- The first `count zone` pages of every zone are programmed, and its blocks were erased
`erases zone` times. -/
structure Filled (count erases : Nat → Nat) (medium : Medium β) : Prop where
  le : ∀ zone < layout.zones, count zone ≤ layout.pages
  programmed : ∀ zone < layout.zones, ∀ n < layout.pages,
    medium.programmed (layout.block zone n) =
      Nat.count (fun k => layout.block zone k = layout.block zone n) (count zone)
  erased : ∀ zone < layout.zones, ∀ n < layout.pages,
    medium.erased (layout.block zone n) = erases zone

theorem filled_blank : layout.Filled (fun _ => 0) (fun _ => 0) .blank where
  le _ _ := Nat.zero_le _
  programmed _ _ _ _ := (Nat.count_zero _).symm
  erased _ _ _ _ := rfl

variable {layout}
variable {count erases : Nat → Nat} {medium : Medium β} {zone n : Nat}

/-- A page is programmed exactly if the zone is filled beyond it. -/
theorem Filled.lt_programmed_iff (filled : layout.Filled count erases medium)
    (zoneLt : zone < layout.zones) (lt : n < layout.pages) :
    layout.page zone n < medium.programmed (layout.block zone n) ↔ n < count zone := by
  rw [filled.programmed zone zoneLt n lt, layout.inTurn zone zoneLt n lt]
  constructor
  · exact Nat.lt_of_count_lt_count
  · exact Nat.count_strict_mono rfl

theorem page_lt_perBlock (zoneLt : zone < layout.zones) (lt : n < layout.pages) :
    layout.page zone n < layout.perBlock := by
  rw [layout.inTurn zone zoneLt n lt, ← layout.full zone zoneLt n lt]
  exact Nat.count_strict_mono rfl lt

/-- Step lemma: the next page of a zone. -/
theorem Filled.program (filled : layout.Filled count erases medium)
    (zoneLt : zone < layout.zones) (room : count zone < layout.pages) :
    medium.Legal layout.perBlock
        (.program (layout.block zone (count zone)) (layout.page zone (count zone))) ∧
      layout.Filled (Function.update count zone (count zone + 1)) erases
        (medium.after
          (.program (layout.block zone (count zone)) (layout.page zone (count zone)))) := by
  have page : layout.page zone (count zone) =
      medium.programmed (layout.block zone (count zone)) :=
    (layout.inTurn zone zoneLt _ room).trans (filled.programmed zone zoneLt _ room).symm
  refine ⟨⟨page, page_lt_perBlock zoneLt room⟩, ?_, ?_, filled.erased⟩
  · intro zone' zoneLt'
    by_cases same : zone' = zone
    · rw [same, Function.update_self]
      exact room
    · rw [Function.update_of_ne same]
      exact filled.le zone' zoneLt'
  · intro zone' zoneLt' n lt
    change Function.update medium.programmed _ _ _ = _
    by_cases here : layout.block zone' n = layout.block zone (count zone)
    · obtain rfl := layout.apart zone' zoneLt' n lt zone zoneLt _ room here
      rw [here, Function.update_self, Function.update_self, page, Nat.count_succ, if_pos rfl,
        filled.programmed zone' zoneLt' _ room]
    · rw [Function.update_of_ne here, filled.programmed zone' zoneLt' n lt]
      by_cases same : zone' = zone
      · subst same
        rw [Function.update_self, Nat.count_succ, if_neg (Ne.symm here), Nat.add_zero]
      · rw [Function.update_of_ne same]

/-- Run lemma: some more pages of a zone. -/
theorem Filled.fill (filled : layout.Filled count erases medium) (zoneLt : zone < layout.zones)
    {more : Nat} (le : count zone + more ≤ layout.pages) :
    medium.LegalAll layout.perBlock (layout.fill zone (count zone) more) ∧
      layout.Filled (Function.update count zone (count zone + more)) erases
        (medium.run (layout.fill zone (count zone) more)) := by
  induction more generalizing count medium with
  | zero =>
      refine ⟨trivial, ?_⟩
      rw [Nat.add_zero, Function.update_eq_self]
      exact filled
  | succ more ih =>
      obtain ⟨legal, filled'⟩ := filled.program zoneLt (Nat.lt_of_lt_of_le (by omega) le)
      obtain ⟨rest, done⟩ := ih filled' (by rw [Function.update_self]; omega)
      rw [Function.update_self, Function.update_idem, Nat.add_right_comm] at done
      rw [Function.update_self] at rest
      exact ⟨⟨legal, rest⟩, done⟩

/-- A full zone is emptied by erasing its blocks. -/
theorem Filled.empty (filled : layout.Filled count erases medium) (zoneLt : zone < layout.zones)
    (allUsed : count zone = layout.pages) {blocks : List β} (once : blocks.Nodup)
    (mem : ∀ block, block ∈ blocks ↔ ∃ n < layout.pages, block = layout.block zone n) :
    medium.LegalAll layout.perBlock (blocks.map .erase) ∧
      layout.Filled (Function.update count zone 0)
        (Function.update erases zone (erases zone + 1)) (medium.run (blocks.map .erase)) := by
  have inZone : ∀ zone' < layout.zones, ∀ n < layout.pages,
      layout.block zone' n ∈ blocks ↔ zone' = zone := by
    intro zone' zoneLt' n lt
    rw [mem]
    constructor
    · rintro ⟨n', lt', same⟩
      exact layout.apart zone' zoneLt' n lt zone zoneLt n' lt' same
    · rintro rfl
      exact ⟨n, lt, rfl⟩
  refine ⟨Medium.legalAll_erase once ?_, ?_, ?_, ?_⟩
  · intro block isBlock
    obtain ⟨n, lt, rfl⟩ := (mem block).mp isBlock
    rw [filled.programmed zone zoneLt n lt, allUsed, layout.full zone zoneLt n lt]
  · intro zone' zoneLt'
    by_cases same : zone' = zone
    · rw [same, Function.update_self]
      exact Nat.zero_le _
    · rw [Function.update_of_ne same]
      exact filled.le zone' zoneLt'
  · intro zone' zoneLt' n lt
    rw [(Medium.run_erase once _).1]
    by_cases same : zone' = zone
    · rw [if_pos ((inZone zone' zoneLt' n lt).mpr same), same, Function.update_self,
        Nat.count_zero]
    · rw [if_neg (same ∘ (inZone zone' zoneLt' n lt).mp), Function.update_of_ne same,
        filled.programmed zone' zoneLt' n lt]
  · intro zone' zoneLt' n lt
    rw [(Medium.run_erase once _).2, filled.erased zone' zoneLt' n lt]
    by_cases same : zone' = zone
    · rw [if_pos ((inZone zone' zoneLt' n lt).mpr same), same, Function.update_self]
    · rw [if_neg (same ∘ (inZone zone' zoneLt' n lt).mp), Function.update_of_ne same]

end Layout

end ZnsLsm.EraseBlocks
