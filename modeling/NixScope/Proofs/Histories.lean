import Mathlib.Data.List.Induction
import NixScope.Workspace
import NixScope.Proofs.FileSets

namespace NixScope.Workspace

inductive Event
  | setText (path : Path) (text : String)
  | load (path : Path) (entry : DiskEntry)
  | remove (file : FileId)

def Event.write? : Event → Option (Path × String)
  | setText path text => some (path, text)
  | load path entry => entry.text.toOption.map (path, ·)
  | remove _ => none

def step (w : Workspace) : Event → Workspace
  | .setText path text => (w.setText path text).2
  | .load path entry => (w.load path entry).2
  | .remove file => (w.remove file).2

def after (history : List Event) : Workspace := history.foldl step empty

/-- The text that was set last for a path, in whatever spelling. -/
def lastText? (history : List Event) (path : Path) : Option String :=
  (history.filterMap Event.write?).reverse.lookup path

variable {w : Workspace} {history : List Event} {e : Event} {path : Path} {text : String}

theorem after_concat : after (history ++ [e]) = step (after history) e := by
  rw [after, List.foldl_append]
  rfl

theorem fileSet_setText : (w.setText path text).2.fileSet =
    (w.fileSet.fileId path).2.setText (w.fileSet.fileId path).1 text := rfl

theorem documents_setText : (w.setText path text).2.documents =
    w.documents.insert (w.fileSet.fileId path).1 (.of path text) := rfl

theorem fileSet_remove {file : FileId} :
    (w.remove file).2.fileSet = (w.fileSet.remove file).2 := rfl

theorem documents_remove {file : FileId} :
    (w.remove file).2.documents = w.documents.erase file := rfl

/-- An event sets a text, closes a file or does nothing. -/
theorem step_cases (w : Workspace) (e : Event) :
    (∃ path text, e.write? = some (path, text) ∧ w.step e = (w.setText path text).2) ∨
    (∃ file, e = .remove file ∧ w.step e = (w.remove file).2) ∨
    e.write? = none ∧ w.step e = w := by
  cases e with
  | setText path text => exact .inl ⟨path, text, rfl, rfl⟩
  | remove file => exact .inr (.inl ⟨file, rfl, rfl⟩)
  | load path entry =>
    rw [step, load, Event.write?]
    cases ht : entry.text with
    | error failure => exact .inr (.inr ⟨rfl, rfl⟩)
    | ok text => exact .inl ⟨path, text, rfl, rfl⟩

theorem lastText?_of_write (he : e.write? = some (path, text)) (p : Path) :
    lastText? (history ++ [e]) p = if p == path then some text else lastText? history p := by
  rw [lastText?, List.filterMap_append, List.reverse_append]
  simp only [List.filterMap_cons, he, List.filterMap_nil, List.reverse_singleton,
    List.singleton_append, List.lookup_cons, lastText?]
  cases p == path <;> rfl

theorem lastText?_of_no_write (he : e.write? = none) (p : Path) :
    lastText? (history ++ [e]) p = lastText? history p := by
  rw [lastText?, List.filterMap_append, List.filterMap_cons, he, List.filterMap_nil,
    List.append_nil, lastText?]

theorem lastText?_congr {p q : Path} (hpq : (p == q) = true) :
    lastText? history p = lastText? history q := by
  rw [lastText?, lastText?]
  induction (history.filterMap Event.write?).reverse with
  | nil => rfl
  | cons x xs ih => rw [List.lookup_cons, List.lookup_cons, BEq.congr_left hpq, ih]

/-- A file has been read from the text that was set last for its path. -/
structure Current (history : List Event) (w : Workspace) (file : FileId) (d : Document) :
    Prop where
  lookup : w.lookup d.path = some file
  text? : w.fileSet.text? file = some d.text
  last : lastText? history d.path = some d.text
  parse : d.parse = Syntax.parse d.text
  lines : d.lines = .of d.text

/-- The tables tell of the same files, the older ones first, and all files are current. -/
structure Consistent (history : List Event) (w : Workspace) : Prop where
  fileSet : w.fileSet.WellFormed
  ordered : w.documents.keys.Pairwise (·.index < ·.index)
  documents : ∀ f, f ∈ w.documents.keys ↔ f ∈ w.fileSet.files
  texts : ∀ f, f ∈ w.fileSet.texts.keys ↔ f ∈ w.fileSet.files
  current : ∀ f d, w.documents.get? f = some d → Current history w f d

def Retired (w : Workspace) (file : FileId) : Prop :=
  file.index < w.fileSet.nextId ∧ file ∉ w.fileSet.files

theorem consistent_empty : Consistent [] empty where
  fileSet := FileSet.wellFormed_empty
  ordered := .nil
  documents _ := Iff.rfl
  texts _ := Iff.rfl
  current _ _ := nofun

section

variable (h : Consistent history w)

include h

theorem Consistent.distinct : w.documents.Distinct := by
  have ho := h.ordered
  rw [Table.keys, List.pairwise_map] at ho
  refine ho.imp fun {a b} hab => ?_
  rw [beq_eq_false_iff_ne]
  intro heq
  rw [heq] at hab
  exact Nat.lt_irrefl _ hab

theorem Consistent.ordered_setText (path : Path) (text : String) :
    (w.setText path text).2.documents.keys.Pairwise (·.index < ·.index) := by
  rw [documents_setText, Table.keys_insert h.distinct]
  split
  · exact h.ordered
  · rename_i hc
    rw [← Table.mem_keys, h.documents] at hc
    rw [List.pairwise_append, h.fileSet.fileId_eq_next path hc]
    refine ⟨h.ordered, List.pairwise_singleton _ _, fun f hf g hg => ?_⟩
    cases List.mem_singleton.mp hg
    exact h.fileSet.bounded f ((h.documents f).mp hf)

theorem Consistent.current_setText (he : e.write? = some (path, text)) {f : FileId} {d : Document}
    (hd : (w.setText path text).2.documents.get? f = some d) :
    Current (history ++ [e]) (w.setText path text).2 f d := by
  have hs := h.fileSet
  have hlookup := hs.lookup_fileId path
  have htext := (hs.fileId path).text?_setText (w.fileSet.fileId path).1 text (f := f)
  rw [documents_setText, Table.get?_insert h.distinct] at hd
  by_cases hf : f = (w.fileSet.fileId path).1
  · rw [if_pos (by simp [hf])] at hd htext
    cases hd
    refine ⟨?_, htext, ?_, rfl, rfl⟩
    · rw [hf]
      exact hlookup
    · rw [lastText?_of_write he]
      exact if_pos BEq.rfl
  · rw [if_neg (by simpa using hf)] at hd htext
    have hc := h.current f d hd
    have hkept := hs.lookup_fileId_of_lookup path hc.lookup
    refine ⟨hkept, ?_, ?_, hc.parse, hc.lines⟩
    · rw [fileSet_setText, htext, FileSet.text?, hs.texts_fileId path]
      exact hc.text?
    · rw [lastText?_of_write he, if_neg, hc.last]
      -- the path of another file leads to that file still
      intro hp
      have hsame := (hs.fileId path).lookup_of_beq hlookup (BEq.symm hp)
      rw [hkept, Option.some.injEq] at hsame
      exact hf hsame

theorem Consistent.setText (he : e.write? = some (path, text)) :
    Consistent (history ++ [e]) (w.setText path text).2 where
  fileSet := (h.fileSet.fileId path).setText _ text
  ordered := h.ordered_setText path text
  documents f := by
    rw [documents_setText, Table.mem_keys_insert h.distinct, h.documents]
    exact (h.fileSet.mem_files_fileId path).symm
  texts f := by
    have hk := Table.mem_keys_insert (k := f) h.fileSet.texts (w.fileSet.fileId path).1 text
    rw [h.texts, ← h.fileSet.mem_files_fileId path, ← h.fileSet.texts_fileId path] at hk
    exact hk
  current _ _ hd := h.current_setText he hd

theorem Consistent.remove (file : FileId) :
    Consistent (history ++ [.remove file]) (w.remove file).2 where
  fileSet := h.fileSet.remove file
  ordered := List.Pairwise.sublist (List.eraseP_sublist.map _) h.ordered
  documents f := by
    rw [fileSet_remove, h.fileSet.mem_files_remove, ← h.documents, documents_remove,
      Table.mem_keys_erase h.distinct]
  texts f := by
    rw [fileSet_remove, h.fileSet.mem_files_remove, ← h.texts, FileSet.texts_remove,
      Table.mem_keys_swapErase h.fileSet.texts]
  current f d hd := by
    rw [documents_remove, Table.get?_erase h.distinct] at hd
    split at hd
    · cases hd
    · rename_i hf
      have hc := h.current f d hd
      refine ⟨h.fileSet.lookup_remove file hc.lookup (by simpa using hf), ?_, ?_, hc.parse,
        hc.lines⟩
      · rw [fileSet_remove, h.fileSet.text?_remove, if_neg hf, hc.text?]
      · rw [lastText?_of_no_write (by rfl), hc.last]

theorem Consistent.step (e : Event) : Consistent (history ++ [e]) (w.step e) := by
  obtain ⟨path, text, he, heq⟩ | ⟨file, rfl, heq⟩ | ⟨he, heq⟩ := step_cases w e
  · rw [heq]
    exact h.setText he
  · rw [heq]
    exact h.remove file
  · rw [heq]
    refine ⟨h.fileSet, h.ordered, h.documents, h.texts, fun f d hd => ?_⟩
    have hc := h.current f d hd
    exact ⟨hc.lookup, hc.text?, by rw [lastText?_of_no_write he, hc.last], hc.parse, hc.lines⟩

theorem Consistent.lookup_step {f : FileId} (hl : w.lookup path = some f) (he : e ≠ .remove f) :
    (w.step e).lookup path = some f := by
  obtain ⟨p, text, -, heq⟩ | ⟨file, rfl, heq⟩ | ⟨-, heq⟩ := step_cases w e
  · rw [heq]
    exact h.fileSet.lookup_fileId_of_lookup p hl
  · rw [heq]
    refine h.fileSet.lookup_remove file hl ?_
    rintro rfl
    exact he rfl
  · rw [heq, hl]

theorem Consistent.retired_remove {f : FileId} (hf : f ∈ w.documents.keys) :
    (w.remove f).2.Retired f :=
  h.fileSet.retired_remove ((h.documents f).mp hf)

theorem Consistent.retired_step {f : FileId} (hf : w.Retired f) (e : Event) :
    (w.step e).Retired f := by
  obtain ⟨p, text, -, heq⟩ | ⟨file, -, heq⟩ | ⟨-, heq⟩ := step_cases w e
  · rw [heq]
    exact h.fileSet.retired_fileId hf p
  · rw [heq]
    exact h.fileSet.retired_of_remove hf file
  · rw [heq]
    exact hf

end

theorem consistent_after (history : List Event) : Consistent history (after history) := by
  induction history using List.reverseRecOn with
  | nil => exact consistent_empty
  | append_singleton history e ih =>
    rw [after_concat]
    exact ih.step e

/-- A path that is known leads to the same file until that file is closed. -/
theorem lookup_after {f : FileId} (hl : (after history).lookup path = some f)
    {later : List Event} (hlater : .remove f ∉ later) :
    (after (history ++ later)).lookup path = some f := by
  induction later using List.reverseRecOn with
  | nil => rwa [List.append_nil]
  | append_singleton later e ih =>
    rw [List.mem_append, List.mem_singleton, not_or] at hlater
    rw [← List.append_assoc, after_concat]
    exact (consistent_after _).lookup_step (ih hlater.1) (Ne.symm hlater.2)

/-- A number is not given again. -/
theorem retired_after {f : FileId} (hf : (after history).Retired f) (later : List Event) :
    (after (history ++ later)).Retired f := by
  induction later using List.reverseRecOn with
  | nil => rwa [List.append_nil]
  | append_singleton later e ih =>
    rw [← List.append_assoc, after_concat]
    exact (consistent_after _).retired_step ih e

theorem load_error {entry : DiskEntry} {err : LoadError} (hl : (w.load path entry).1 = .error err) :
    (w.load path entry).2 = w := by
  rw [load] at hl ⊢
  cases ht : entry.text with
  | error failure => rfl
  | ok text =>
    rw [ht] at hl
    cases hl

theorem get?_after_write (he : e.write? = some (path, text)) :
    ∃ f, (after (history ++ [e])).lookup path = some f ∧
      (after (history ++ [e])).snapshot.get? f = some (.of path text) ∧
      (after (history ++ [e])).fileSet.text? f = some text := by
  have h := consistent_after history
  have hstep : after (history ++ [e]) = ((after history).setText path text).2 := by
    rw [after_concat]
    obtain ⟨p, t, hw, heq⟩ | ⟨file, rfl, -⟩ | ⟨hw, -⟩ := step_cases (after history) e
    · rw [he, Option.some.injEq, Prod.mk.injEq] at hw
      rw [heq, hw.1, hw.2]
    · cases he
    · rw [he] at hw
      cases hw
  refine ⟨((after history).fileSet.fileId path).1, ?_, ?_, ?_⟩
  · rw [hstep]
    exact h.fileSet.lookup_fileId path
  · rw [hstep, snapshot, documents_setText, Table.get?_insert h.distinct, if_pos BEq.rfl]
  · rw [hstep, fileSet_setText, (h.fileSet.fileId path).text?_setText, if_pos BEq.rfl]

/-- A workspace stays consistent over every history. Its four tables tell of the same files; a file
is the text that was set last for its path, and this text as it is read; a text that is set or
loaded is there from then on. A path keeps its number until the file is closed, and a number is never
used again. Files come in the order of their numbers. A file that cannot be loaded changes nothing. -/
theorem history_keeps_consistent (history : List Event) :
    (∀ f, (f ∈ (after history).documents.keys ↔ f ∈ (after history).fileSet.byId.keys) ∧
      (f ∈ (after history).documents.keys ↔ ∃ p, (p, f) ∈ (after history).fileSet.byPath.entries) ∧
      (f ∈ (after history).documents.keys ↔ f ∈ (after history).fileSet.texts.keys)) ∧
    (∀ f ∈ (after history).snapshot.keys, ∃ d p, (after history).snapshot.get? f = some d ∧
      (after history).fileSet.path? f = some p ∧ (p == d.path) = true ∧
      (after history).lookup p = some f ∧ lastText? history p = some d.text ∧
      (after history).fileSet.text? f = some d.text ∧
      d.parse = Syntax.parse d.text ∧ d.lines = .of d.text) ∧
    (∀ e path text, e.write? = some (path, text) → ∃ f,
      (after (history ++ [e])).lookup path = some f ∧
      (after (history ++ [e])).snapshot.get? f = some (.of path text) ∧
      (after (history ++ [e])).fileSet.text? f = some text) ∧
    (∀ p f later, (after history).lookup p = some f → .remove f ∉ later →
      (after (history ++ later)).lookup p = some f ∧
      ∀ text, ((after (history ++ later)).setText p text).1 = f) ∧
    (∀ f later, ((after history).remove f).1 = true →
      f ∉ (after (history ++ .remove f :: later)).snapshot.keys) ∧
    (after history).snapshot.keys.Pairwise (·.index < ·.index) ∧
    (∀ checks, ((after history).snapshot.allDiagnostics checks).Pairwise (·.1.index < ·.1.index)) ∧
    (∀ f, ((after history).remove f).1 = true ↔ f ∈ (after history).snapshot.keys) ∧
    (∀ path entry err, ((after history).load path entry).1 = .error err →
      ((after history).load path entry).2 = after history) := by
  have h := consistent_after history
  have hs := h.fileSet
  have hremove (f) : ((after history).remove f).1 = true ↔ f ∈ (after history).snapshot.keys :=
    Table.mem_keys.symm
  refine ⟨fun f => ⟨h.documents f, ?_, ?_⟩, fun f hf => ?_, fun e path text => get?_after_write,
    fun p f later hl hlater => ?_, fun f later hf => ?_, h.ordered, fun checks => ?_, hremove,
    fun _ _ _ => load_error⟩
  · rw [h.documents, hs.mirrored]
    simp [FileSet.files, Table.keys]
  · rw [h.documents, h.texts]
  · obtain ⟨d, hd⟩ := Table.exists_get?.mp hf
    have hc := h.current f d hd
    obtain ⟨p, hp, hpd⟩ := hs.lookup_iff.mp hc.lookup
    refine ⟨d, p, hd, hp, hpd, hs.lookup_of_beq hc.lookup (BEq.symm hpd), ?_, hc.text?, hc.parse,
      hc.lines⟩
    rw [lastText?_congr hpd, hc.last]
  · have hlookup := lookup_after hl hlater
    refine ⟨hlookup, fun text => ?_⟩
    rw [setText, FileSet.fileId_of_lookup hlookup]
  · have hretired := h.retired_remove ((hremove f).mp hf)
    have hafter : after (history ++ [.remove f]) = ((after history).remove f).2 := after_concat
    rw [← hafter] at hretired
    have hlater := retired_after hretired later
    rw [List.append_assoc, List.singleton_append] at hlater
    rw [snapshot, (consistent_after _).documents]
    exact hlater.2
  · rw [Snapshot.allDiagnostics, List.pairwise_map]
    exact h.ordered

end NixScope.Workspace
