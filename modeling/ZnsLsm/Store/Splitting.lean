import ZnsLsm.Store.Commands

/-!
# How a compaction splits its entries

The output loop collects entries until the next one does not fit, and then writes what it
has collected.  So every file takes at most a slot, and no file has room for the first entry
of the next one.
-/

namespace ZnsLsm.Store

open ZnsLsm.Pool (sstableSize)

@[simp]
theorem tableSize_concat (entries : List (Nat × Str)) (entry : Nat × Str) :
    tableSize (entries ++ [entry]) = tableSize entries + entrySize entry.2 := by
  rw [tableSize, tableSize, List.map_append, List.sum_append, List.map_singleton,
    List.sum_singleton, Nat.add_assoc]

@[simp]
theorem tableSize_singleton (entry : Nat × Str) :
    tableSize [entry] = initialSize + entrySize entry.2 := by
  rw [tableSize, List.map_singleton, List.sum_singleton]

/-- The files hold the entries in order, each file takes at most a slot, and the first entry of
the next file does not fit into it. -/
structure Split (entries : List (Nat × Str)) (files : List (List (Nat × Str))) : Prop where
  flatten : files.flatten = entries
  nonempty : ∀ file ∈ files, file ≠ []
  bounded : ∀ file ∈ files, tableSize file ≤ sstableSize
  maximal : files.IsChain fun file next =>
    ∀ entry ∈ next.head?, sstableSize < tableSize (file ++ [entry])

namespace KVStore

variable {entries pending : List (Nat × Str)}

/-- The first file begins with what is collected. -/
theorem head_cut {size : Nat} (collected : pending ≠ []) :
    ∃ file files, cut size pending entries = file :: files ∧ file.head? = pending.head? := by
  induction entries generalizing size pending with
  | nil =>
      cases pending with
      | nil => exact absurd rfl collected
      | cons entry rest => exact ⟨entry :: rest, [], rfl, rfl⟩
  | cons entry rest ih =>
      rw [cut]
      split
      · exact ⟨pending, _, rfl, rfl⟩
      · obtain ⟨file, files, cutEq, head⟩ := ih (List.append_ne_nil_of_left_ne_nil collected _)
        refine ⟨file, files, cutEq, head.trans ?_⟩
        exact List.head?_append_of_ne_nil pending collected

/-- The entries collected so far take at most a slot, and so does every file. -/
theorem bounded_cut (collected : pending ≠ []) (within : tableSize pending ≤ sstableSize)
    (fits : ∀ entry ∈ entries, Fits entry.2) :
    (∀ file ∈ cut (tableSize pending) pending entries, tableSize file ≤ sstableSize) ∧
      (cut (tableSize pending) pending entries).IsChain fun file next =>
        ∀ entry ∈ next.head?, sstableSize < tableSize (file ++ [entry]) := by
  induction entries generalizing pending with
  | nil =>
      cases pending with
      | nil => exact absurd rfl collected
      | cons entry rest =>
          refine ⟨fun file mem => ?_, List.IsChain.singleton _⟩
          obtain rfl := List.mem_singleton.mp mem
          exact within
  | cons entry rest ih =>
      have entryFits : tableSize [entry] ≤ sstableSize := by
        rw [tableSize_singleton]
        exact fits entry List.mem_cons_self
      have restFits : ∀ other ∈ rest, Fits other.2 := fun other mem =>
        fits other (List.mem_cons_of_mem entry mem)
      rw [cut, ← tableSize_concat, ← tableSize_singleton]
      split
      · rename_i large
        obtain ⟨bounded, chain⟩ := ih (List.cons_ne_nil entry []) entryFits restFits
        obtain ⟨file, files, cutEq, head⟩ :=
          @head_cut rest [entry] (tableSize [entry]) (List.cons_ne_nil entry [])
        constructor
        · exact List.forall_mem_cons.mpr ⟨within, bounded⟩
        · rw [cutEq] at chain ⊢
          refine List.IsChain.cons_cons ?_ chain
          intro other isHead
          rw [head] at isHead
          cases isHead
          exact large
      · rename_i small
        exact ih (List.append_ne_nil_of_left_ne_nil collected _) (Nat.le_of_not_lt small) restFits

/-- The files of entries that fit tables are a split. -/
theorem split_cut (fits : ∀ entry ∈ entries, Fits entry.2) :
    Split entries (cut initialSize [] entries) := by
  have files : (∀ file ∈ cut initialSize [] entries, tableSize file ≤ sstableSize) ∧
      (cut initialSize [] entries).IsChain fun file next =>
        ∀ entry ∈ next.head?, sstableSize < tableSize (file ++ [entry]) := by
    cases entries with
    | nil => exact ⟨fun _ => (absurd · List.not_mem_nil), List.IsChain.nil⟩
    | cons entry rest =>
        have entryFits : initialSize + entrySize entry.2 ≤ sstableSize :=
          fits entry List.mem_cons_self
        rw [cut, if_neg (Nat.not_lt.mpr entryFits), List.nil_append, ← tableSize_singleton]
        rw [← tableSize_singleton] at entryFits
        exact bounded_cut (List.cons_ne_nil entry []) entryFits fun other mem =>
          fits other (List.mem_cons_of_mem entry mem)
  constructor
  · rw [flatten_cut, List.nil_append]
  · rintro file mem rfl
    obtain ⟨entry, rest, rfl, large⟩ := (nil_mem_cut_iff entries).mp mem
    exact absurd large (Nat.not_lt.mpr (fits entry List.mem_cons_self))
  · exact files.1
  · exact files.2

/-- The output loop of a compaction, over any merged entries that fit tables, writes files that
split the entries; on the last level, the entries that are deletion markers are left out. -/
theorem split_of_fits (entries : List (Nat × Str)) (fits : ∀ entry ∈ entries, Fits entry.2)
    (level timestamp : Nat) (lastLevel : Bool) :
    ∃ files, Split (if lastLevel then entries.filter (·.2 ≠ .del) else entries) files ∧
      ∀ store : KVStore,
        (entries.foldlM (Output.add level timestamp lastLevel) ⟨store, initialSize, []⟩ >>=
            Output.finish level timestamp) =
          files.foldlM
            (fun store file => store.writeToFile level timestamp file.length file) store ∧
        files.foldlM
            (fun store file => store.writeToFile level timestamp file.length file) store =
          .ok (wrote level timestamp store files) := by
  have keptEq : kept lastLevel entries =
      if lastLevel then entries.filter (·.2 ≠ .del) else entries := by
    cases lastLevel with
    | false => simp [kept]
    | true => simp [kept]
  have keptFits : ∀ entry ∈ kept lastLevel entries, Fits entry.2 := fun entry mem =>
    fits entry (List.mem_of_mem_filter mem)
  have split := split_cut keptFits
  refine ⟨cut initialSize [] (kept lastLevel entries), keptEq ▸ split, fun store => ⟨?_, ?_⟩⟩
  · exact foldlM_add level timestamp lastLevel entries store initialSize []
  · have written :=
      foldlM_writeFile level timestamp (cut initialSize [] (kept lastLevel entries)) store
    rw [if_neg fun mem => split.nonempty [] mem rfl] at written
    exact written

/-- Two large entries and a deletion marker, on a level that is not the last. -/
theorem split_large : ∃ files,
    Split
      [(1, .replicate 60000000 (by decide) 0), (2, .del), (3, .replicate 60000000 (by decide) 0)]
      files := by
  have fits : ∀ entry ∈ [(1, Str.replicate 60000000 (by decide) 0), (2, .del),
      (3, Str.replicate 60000000 (by decide) 0)], Fits entry.2 := by
    intro entry mem
    simp only [List.mem_cons, List.not_mem_nil, or_false] at mem
    rcases mem with rfl | rfl | rfl
    · decide +kernel
    · exact fits_del
    · decide +kernel
  obtain ⟨files, split, -⟩ := split_of_fits _ fits 1 0 false
  exact ⟨files, split⟩

end KVStore

end ZnsLsm.Store
