import NixScope.Workspace.FileSet
import NixScope.Proofs.Tables

namespace NixScope

namespace Path

theorem beq_iff {p q : Path} : (p == q) = true ↔ p.components = q.components := by
  rw [← beq_iff_eq (a := p.components)]
  rfl

instance : EquivBEq Path where
  rfl := beq_iff.mpr rfl
  symm h := beq_iff.mpr (beq_iff.mp h).symm
  trans h h' := beq_iff.mpr ((beq_iff.mp h).trans (beq_iff.mp h'))

end Path

namespace FileSet

variable {s : FileSet} {path : Path} {file : FileId}

/-- The tables mirror each other, nothing comes twice, and the next number is above all others. -/
structure WellFormed (s : FileSet) : Prop where
  mirrored : s.byPath.entries = s.byId.entries.map Prod.swap
  paths : s.byPath.Distinct
  ids : s.byId.Distinct
  texts : s.texts.Distinct
  bounded : ∀ f ∈ s.files, f.index < s.nextId

theorem wellFormed_empty : empty.WellFormed where
  mirrored := rfl
  paths := Table.distinct_empty
  ids := Table.distinct_empty
  texts := Table.distinct_empty
  bounded := nofun

theorem mem_files : file ∈ s.files ↔ ∃ p, s.path? file = some p :=
  Table.exists_get?

theorem fileId_of_lookup (hl : s.lookup path = some file) : s.fileId path = (file, s) := by
  rw [fileId, hl]

theorem WellFormed.lookup_iff (h : s.WellFormed) :
    s.lookup path = some file ↔ ∃ p, s.path? file = some p ∧ (p == path) = true := by
  rw [lookup, Table.get?_eq_some_iff h.paths, h.mirrored]
  simp only [path?, Table.get?_iff_mem h.ids, List.mem_map, Prod.exists]
  constructor
  · rintro ⟨_, _, ⟨f, p, he, hswap⟩, hp, rfl⟩
    cases hswap
    exact ⟨p, he, hp⟩
  · rintro ⟨p, he, hp⟩
    exact ⟨p, file, ⟨file, p, he, rfl⟩, hp, rfl⟩

theorem WellFormed.lookup_of_beq (h : s.WellFormed) (hl : s.lookup path = some file) {p : Path}
    (hp : (path == p) = true) : s.lookup p = some file := by
  obtain ⟨q, hq, hqp⟩ := h.lookup_iff.mp hl
  exact h.lookup_iff.mpr ⟨q, hq, BEq.trans hqp hp⟩

theorem WellFormed.mem_files_of_lookup (h : s.WellFormed) (hl : s.lookup path = some file) :
    file ∈ s.files := by
  obtain ⟨p, hp, -⟩ := h.lookup_iff.mp hl
  exact mem_files.mpr ⟨p, hp⟩

theorem WellFormed.split (h : s.WellFormed) {before after : List (FileId × Path)}
    {e : FileId × Path} (hs : s.byId.Split file before e after) :
    s.byPath.Split e.2 (before.map Prod.swap) e.swap (after.map Prod.swap) := by
  apply Table.split_of_entries h.paths
  · rw [h.mirrored, hs.entries, List.map_append, List.map_cons]
  · rw [Prod.fst_swap, BEq.rfl]

section

variable (h : s.WellFormed) (path : Path)

include h

theorem WellFormed.next_not_contains : s.byId.contains ⟨s.nextId⟩ = false := by
  rw [← Bool.not_eq_true, ← Table.mem_keys]
  intro hmem
  exact Nat.lt_irrefl _ (h.bounded _ hmem)

/-- Either the path is known, or it comes last in both tables under the next number. -/
theorem WellFormed.fileId_cases :
    (∃ f, s.lookup path = some f ∧ s.fileId path = (f, s)) ∨
    s.lookup path = none ∧ s.fileId path = (⟨s.nextId⟩,
      { s with byPath := ⟨s.byPath.entries ++ [(path, ⟨s.nextId⟩)]⟩
               byId := ⟨s.byId.entries ++ [(⟨s.nextId⟩, path)]⟩
               nextId := s.nextId + 1 }) := by
  cases hl : s.lookup path with
  | some f => exact .inl ⟨f, rfl, fileId_of_lookup hl⟩
  | none =>
    have hpath := Table.contains_of_get?_none hl
    refine .inr ⟨rfl, ?_⟩
    simp only [fileId, hl, Table.insert_of_not_contains hpath,
      Table.insert_of_not_contains h.next_not_contains]

theorem WellFormed.fileId : (s.fileId path).2.WellFormed := by
  obtain ⟨f, -, heq⟩ | ⟨hl, heq⟩ := h.fileId_cases path
  · rw [heq]
    exact h
  · have hpath := Table.contains_of_get?_none hl
    have hpaths := Table.distinct_insert h.paths path ⟨s.nextId⟩
    have hids := Table.distinct_insert h.ids ⟨s.nextId⟩ path
    rw [Table.insert_of_not_contains hpath] at hpaths
    rw [Table.insert_of_not_contains h.next_not_contains] at hids
    rw [heq]
    refine ⟨?_, hpaths, hids, h.texts, fun f hf => ?_⟩
    · simp [h.mirrored]
    · rw [files, Table.keys, List.map_append, List.mem_append, List.map_singleton,
        List.mem_singleton] at hf
      obtain hf | rfl := hf
      · exact Nat.lt_succ_of_lt (h.bounded f hf)
      · exact Nat.lt_succ_self _

theorem WellFormed.lookup_fileId : (s.fileId path).2.lookup path = some (s.fileId path).1 := by
  obtain ⟨f, hl, heq⟩ | ⟨hl, heq⟩ := h.fileId_cases path
  · rw [heq]
    exact hl
  · rw [lookup, Table.get?] at hl
    rw [heq, lookup, Table.get?, List.lookup_append, hl]
    simp

theorem WellFormed.path?_fileId {f : FileId} {p : Path} (hp : s.path? f = some p) :
    (s.fileId path).2.path? f = some p := by
  obtain ⟨g, -, heq⟩ | ⟨-, heq⟩ := h.fileId_cases path
  · rw [heq]
    exact hp
  · rw [path?, Table.get?] at hp
    rw [heq, path?, Table.get?, List.lookup_append, hp, Option.some_or]

theorem WellFormed.lookup_fileId_of_lookup {f : FileId} {p : Path} (hl : s.lookup p = some f) :
    (s.fileId path).2.lookup p = some f := by
  obtain ⟨q, hq, hqp⟩ := h.lookup_iff.mp hl
  exact (h.fileId path).lookup_iff.mpr ⟨q, h.path?_fileId path hq, hqp⟩

theorem WellFormed.mem_files_fileId {f : FileId} :
    f ∈ (s.fileId path).2.files ↔ f = (s.fileId path).1 ∨ f ∈ s.files := by
  obtain ⟨g, hl, heq⟩ | ⟨-, heq⟩ := h.fileId_cases path
  · rw [heq]
    constructor
    · exact .inr
    · rintro (rfl | hf)
      · exact h.mem_files_of_lookup hl
      · exact hf
  · rw [heq]
    simp [files, Table.keys, or_comm]

theorem WellFormed.fileId_eq_next (hf : (s.fileId path).1 ∉ s.files) :
    (s.fileId path).1 = ⟨s.nextId⟩ := by
  obtain ⟨f, hl, heq⟩ | ⟨-, heq⟩ := h.fileId_cases path
  · rw [heq] at hf
    exact absurd (h.mem_files_of_lookup hl) hf
  · rw [heq]

theorem WellFormed.nextId_le : s.nextId ≤ (s.fileId path).2.nextId := by
  obtain ⟨f, -, heq⟩ | ⟨-, heq⟩ := h.fileId_cases path
  · exact Nat.le_of_eq (by rw [heq])
  · rw [heq]
    exact Nat.le_succ _

theorem WellFormed.texts_fileId : (s.fileId path).2.texts = s.texts := by
  obtain ⟨f, -, heq⟩ | ⟨-, heq⟩ := h.fileId_cases path <;> rw [heq]

theorem WellFormed.setText (file : FileId) (text : String) : (s.setText file text).WellFormed :=
  ⟨h.mirrored, h.paths, h.ids, Table.distinct_insert h.texts file text, h.bounded⟩

theorem WellFormed.text?_setText (file : FileId) (text : String) {f : FileId} :
    (s.setText file text).text? f = if f == file then some text else s.text? f :=
  Table.get?_insert h.texts file text

end

section

variable (file : FileId)

theorem texts_remove : (s.remove file).2.texts = s.texts.swapErase file := by
  rw [remove]
  split <;> rfl

theorem nextId_remove : (s.remove file).2.nextId = s.nextId := by
  rw [remove]
  split <;> rfl

theorem byId_remove : (s.remove file).2.byId = s.byId.swapErase file := by
  rw [remove]
  split
  · rename_i hp
    rw [Table.swapErase_of_not_contains (Table.contains_of_get?_none hp)]
  · rfl

variable (h : s.WellFormed)

include h

theorem WellFormed.mem_files_remove {f : FileId} :
    f ∈ (s.remove file).2.files ↔ f ∈ s.files ∧ f ≠ file := by
  rw [files, byId_remove, Table.mem_keys_swapErase h.ids, files]

theorem WellFormed.path?_remove {f : FileId} :
    (s.remove file).2.path? f = if f == file then none else s.path? f := by
  rw [path?, byId_remove, Table.get?_swapErase h.ids, path?]

theorem WellFormed.text?_remove {f : FileId} :
    (s.remove file).2.text? f = if f == file then none else s.text? f := by
  rw [text?, texts_remove, Table.get?_swapErase h.texts, text?]

/-- The last entry of each table moves, and to the same place in both. -/
theorem WellFormed.mirrored_remove : (s.remove file).2.byPath.entries =
    (s.remove file).2.byId.entries.map Prod.swap := by
  rw [byId_remove]
  cases hp : s.path? file with
  | none =>
    rw [Table.swapErase_of_not_contains (Table.contains_of_get?_none hp), ← h.mirrored, remove, hp]
  | some p =>
    have hc := Table.mem_keys.mp (mem_files.mpr ⟨p, hp⟩)
    obtain ⟨before, e, after, hs⟩ := Table.exists_split h.ids hc
    have he : e.2 = p := by
      rw [← Option.some.injEq, ← hs.get?_eq, ← path?, hp]
    subst he
    have hs' := h.split hs
    rw [remove, hp, hs.swapErase_eq, hs'.swapErase_eq]
    simp [Option.toList_map]

theorem WellFormed.remove : (s.remove file).2.WellFormed where
  mirrored := h.mirrored_remove file
  paths := by
    rw [FileSet.remove]
    split
    · exact h.paths
    · exact Table.distinct_swapErase h.paths _
  ids := by
    rw [byId_remove]
    exact Table.distinct_swapErase h.ids file
  texts := by
    rw [texts_remove]
    exact Table.distinct_swapErase h.texts file
  bounded f hf := by
    rw [nextId_remove]
    exact h.bounded f ((h.mem_files_remove file).mp hf).1

/-- The other paths keep their files. -/
theorem WellFormed.lookup_remove {f : FileId} {p : Path} (hl : s.lookup p = some f)
    (hf : f ≠ file) : (s.remove file).2.lookup p = some f := by
  obtain ⟨q, hq, hqp⟩ := h.lookup_iff.mp hl
  refine (h.remove file).lookup_iff.mpr ⟨q, ?_, hqp⟩
  rw [h.path?_remove file, if_neg (by simpa using hf), hq]

theorem WellFormed.lookup_of_remove {f : FileId} {p : Path}
    (hl : (s.remove file).2.lookup p = some f) : s.lookup p = some f ∧ f ≠ file := by
  obtain ⟨q, hq, hqp⟩ := (h.remove file).lookup_iff.mp hl
  rw [h.path?_remove file] at hq
  split at hq
  · cases hq
  · rename_i hf
    exact ⟨h.lookup_iff.mpr ⟨q, hq, hqp⟩, by simpa using hf⟩

theorem WellFormed.lookup_remove_eq (p : Path) :
    (s.remove file).2.lookup p = if s.lookup p = some file then none else s.lookup p := by
  apply Option.ext
  intro f
  constructor
  · intro hl
    obtain ⟨hs, hf⟩ := h.lookup_of_remove file hl
    rw [hs, if_neg (by simpa using hf)]
  · intro hl
    split at hl
    · cases hl
    · rename_i hp
      apply h.lookup_remove file hl
      rintro rfl
      exact hp hl

end

/-- The number has been given to a file that is gone now. -/
def Retired (s : FileSet) (file : FileId) : Prop := file.index < s.nextId ∧ file ∉ s.files

section

variable (h : s.WellFormed)

include h

theorem WellFormed.retired_remove (hf : file ∈ s.files) : (s.remove file).2.Retired file := by
  constructor
  · rw [nextId_remove]
    exact h.bounded file hf
  · rw [h.mem_files_remove]
    exact fun hmem => hmem.2 rfl

theorem WellFormed.fileId_ne_of_retired (hr : s.Retired file) (path : Path) :
    (s.fileId path).1 ≠ file := by
  rintro rfl
  have hlt := hr.1
  rw [h.fileId_eq_next path hr.2] at hlt
  exact Nat.lt_irrefl _ hlt

theorem WellFormed.retired_fileId (hr : s.Retired file) (path : Path) :
    (s.fileId path).2.Retired file := by
  refine ⟨Nat.lt_of_lt_of_le hr.1 (h.nextId_le path), fun hf => ?_⟩
  obtain hf | hf := (h.mem_files_fileId path).mp hf
  · exact h.fileId_ne_of_retired hr path hf.symm
  · exact hr.2 hf

theorem WellFormed.retired_of_remove (hr : s.Retired file) (other : FileId) :
    (s.remove other).2.Retired file := by
  rw [Retired, nextId_remove, h.mem_files_remove]
  exact ⟨hr.1, fun hf => hr.2 hf.1⟩

end

end FileSet

end NixScope
