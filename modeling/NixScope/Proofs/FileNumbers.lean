import Mathlib.Data.List.Induction
import NixScope.Proofs.FileSets

namespace NixScope.FileSet

inductive Change
  | fileId (path : Path)
  | setText (file : FileId) (text : String)
  | remove (file : FileId)

def step (s : FileSet) : Change → FileSet
  | .fileId path => (s.fileId path).2
  | .setText file text => s.setText file text
  | .remove file => (s.remove file).2

def after (changes : List Change) : FileSet := changes.foldl step empty

variable {s : FileSet} {changes : List Change} {file : FileId}

theorem after_concat {c : Change} : after (changes ++ [c]) = step (after changes) c := by
  rw [after, List.foldl_append]
  rfl

theorem WellFormed.step (h : s.WellFormed) (c : Change) : (s.step c).WellFormed := by
  cases c with
  | fileId path => exact h.fileId path
  | setText file text => exact h.setText file text
  | remove file => exact h.remove file

theorem WellFormed.retired_step (h : s.WellFormed) (hr : s.Retired file) (c : Change) :
    (s.step c).Retired file := by
  cases c with
  | fileId path => exact h.retired_fileId hr path
  | setText other text => exact hr
  | remove other => exact h.retired_of_remove hr other

theorem WellFormed.nextId_step (h : s.WellFormed) (c : Change) :
    (s.step c).nextId ≤ s.nextId + 1 := by
  cases c with
  | fileId path =>
    obtain ⟨f, -, heq⟩ | ⟨-, heq⟩ := h.fileId_cases path
    · rw [FileSet.step, heq]
      exact Nat.le_succ _
    · exact Nat.le_of_eq (by rw [FileSet.step, heq])
  | setText other text => exact Nat.le_succ _
  | remove other =>
    rw [FileSet.step, nextId_remove]
    exact Nat.le_succ _

theorem wellFormed_after (changes : List Change) : (after changes).WellFormed := by
  induction changes using List.reverseRecOn with
  | nil => exact wellFormed_empty
  | append_singleton changes c ih =>
    rw [after_concat]
    exact ih.step c

theorem retired_after (hr : (after changes).Retired file) (later : List Change) :
    (after (changes ++ later)).Retired file := by
  induction later using List.reverseRecOn with
  | nil => rwa [List.append_nil]
  | append_singleton later c ih =>
    rw [← List.append_assoc, after_concat]
    exact (wellFormed_after _).retired_step ih c

theorem nextId_after_le (changes : List Change) : (after changes).nextId ≤ changes.length := by
  induction changes using List.reverseRecOn with
  | nil => exact Nat.le_refl 0
  | append_singleton changes c ih =>
    rw [after_concat, List.length_append, List.length_singleton]
    exact Nat.le_trans ((wellFormed_after changes).nextId_step c) (Nat.succ_le_succ ih)

theorem remove_eq_true_iff : (s.remove file).1 = true ↔ file ∈ s.files := by
  rw [mem_files, remove]
  cases s.path? file with
  | none => simp
  | some p => simp

theorem WellFormed.entry_byPath (h : s.WellFormed) (i : Nat) :
    s.byPath.entries[i]? = s.byId.entries[i]?.map Prod.swap := by
  rw [h.mirrored, List.getElem?_map]

/-- However numbers are asked for, texts are set and files are removed, the two tables of a file set
hold the same pairs at the same places, nothing comes twice, and each table leads back to what the
other one has. A path that a number is asked for leads to that number. A number that was taken away
is never given again, and there are no more numbers than changes. A removal tells whether the file
was there and touches no other file. -/
theorem tables_stay_inverse (changes : List Change) :
    (after changes).byPath.size = (after changes).byId.size ∧
    (∀ i : Nat, (after changes).byPath.entries[i]? =
      (after changes).byId.entries[i]?.map Prod.swap) ∧
    ((after changes).byPath.keys.Pairwise fun p q => (p == q) = false) ∧
    (after changes).byId.keys.Nodup ∧
    (∀ file ∈ (after changes).byId.keys, file.index < (after changes).nextId) ∧
    (after changes).nextId ≤ changes.length ∧
    (∀ path file, (after changes).lookup path = some file ↔
      ∃ p, (after changes).path? file = some p ∧ (p == path) = true) ∧
    (∀ path, ((after changes).fileId path).2.lookup path =
      some ((after changes).fileId path).1) ∧
    (∀ file, ((after changes).remove file).1 = true → ∀ later path,
      ((after (changes ++ .remove file :: later)).fileId path).1 ≠ file) ∧
    (∀ file, ((after changes).remove file).1 = true ↔ file ∈ (after changes).byId.keys) ∧
    (∀ file, let removed := after (changes ++ [.remove file])
      (∀ path, removed.lookup path =
        if (after changes).lookup path = some file then none else (after changes).lookup path) ∧
      (∀ f, removed.path? f = if f = file then none else (after changes).path? f) ∧
      (∀ f, removed.text? f = if f = file then none else (after changes).text? f)) := by
  have h := wellFormed_after changes
  have hremove (file) : after (changes ++ [.remove file]) = ((after changes).remove file).2 :=
    after_concat
  refine ⟨?_, h.entry_byPath, ?_, ?_, h.bounded, nextId_after_le changes,
    fun _ _ => h.lookup_iff, h.lookup_fileId, fun file hf later path => ?_,
    fun _ => remove_eq_true_iff, fun file => ?_⟩
  · rw [Table.size, Table.size, h.mirrored, List.length_map]
  · exact List.pairwise_map.mpr h.paths
  · rw [Table.keys, List.Nodup, List.pairwise_map]
    exact h.ids.imp fun hne => by simpa using hne
  · have hretired := h.retired_remove (remove_eq_true_iff.mp hf)
    rw [← hremove] at hretired
    have hlater := retired_after hretired later
    rw [List.append_assoc, List.singleton_append] at hlater
    exact (wellFormed_after _).fileId_ne_of_retired hlater path
  · rw [hremove]
    refine ⟨h.lookup_remove_eq file, fun f => ?_, fun f => ?_⟩
    · rw [h.path?_remove file]
      simp
    · rw [h.text?_remove file]
      simp

end NixScope.FileSet
