import Mathlib.Algebra.GroupWithZero.Nat
import Mathlib.Data.Finset.Card
import Mathlib.Data.List.Induction
import NixScope.Proofs.Highlights

namespace NixScope

open Syntax

namespace Binding

/-- The binding takes a name for itself: its path is a single name, known without evaluation, and
not the beginning of a longer path. -/
def isOwn (b : Binding) : Bool :=
  b.path.rest.isEmpty && !b.path.first.isDynamic && b.declaration.kind != .attrPrefix

/-- The bindings of a list whose names come earlier in the list, each with the first one of that
name. -/
def repeats (bs : List Binding) : List (Binding × Binding) :=
  bs.zipIdx.filterMap fun (b, i) =>
    ((bs.take i).find? (·.path.first == b.path.first)).map (b, ·)

def clash (file : FileId) (lines : Lines) (b previous : Binding) : Diagnostic where
  file := file
  start := lines.position b.declaration.name.range.start
  stop := lines.position b.declaration.name.range.stop
  severity := .error
  code := some "E0004"
  message := s!"duplicate binding: '{b.path.first.render}' is already defined"
  related := [⟨file, lines.position previous.declaration.name.range.start,
    s!"previous binding of '{b.path.first.render}'"⟩]

theorem ownName?_of_isOwn {b : Binding} (h : b.isOwn = true) :
    ∃ name, b.path.first = .static name ∧
      Checks.ownName? b = some (name, b.declaration.name.range) := by
  obtain ⟨⟨first, rest⟩, d⟩ := b
  simp only [isOwn, Bool.and_eq_true, List.isEmpty_iff, bne_iff_ne] at h
  obtain ⟨⟨rfl, hd⟩, hk⟩ := h
  cases first with
  | dynamic p => simp [Attribute.isDynamic] at hd
  | static name => exact ⟨name, rfl, if_neg hk⟩

theorem ownName?_eq_none {b : Binding} (h : b.isOwn = false) : Checks.ownName? b = none := by
  obtain ⟨⟨first, rest⟩, d⟩ := b
  cases first with
  | dynamic p => rfl
  | static name =>
    cases rest with
    | cons a rest => rfl
    | nil =>
      have hk : d.kind = .attrPrefix := by simpa [isOwn, Attribute.isDynamic] using h
      exact if_pos hk

theorem filterMap_ownName? (bs : List Binding) :
    bs.filterMap Checks.ownName? = (bs.filter isOwn).filterMap Checks.ownName? := by
  rw [List.filterMap_filter]
  apply List.filterMap_congr
  intro b hb
  cases h : b.isOwn with
  | true => rfl
  | false => rw [ownName?_eq_none h]; rfl

theorem repeats_concat (bs : List Binding) (b : Binding) :
    repeats (bs ++ [b]) =
      repeats bs ++ ((bs.find? (·.path.first == b.path.first)).map (b, ·)).toList := by
  rw [repeats, repeats, List.zipIdx_append, List.filterMap_append]
  congr 1
  · apply List.filterMap_congr
    rintro ⟨c, i⟩ hc
    have hi := List.snd_lt_of_mem_zipIdx hc
    dsimp only at hi ⊢
    rw [List.take_append_of_le_length (by omega)]
  · rw [Nat.zero_add, List.zipIdx_singleton, List.filterMap_eq_flatMap_toList,
      List.flatMap_singleton]
    dsimp only
    rw [List.take_left]

theorem length_repeats (bs : List Binding) :
    (repeats bs).length + (bs.map (·.path.first)).toFinset.card = bs.length := by
  induction bs using List.reverseRecOn with
  | nil => rfl
  | append_singleton bs b ih =>
    have hnames : ((bs ++ [b]).map (·.path.first)).toFinset =
        insert b.path.first (bs.map (·.path.first)).toFinset := by
      ext name
      simp [eq_comm]
    rw [repeats_concat, hnames, List.length_append, List.length_append, List.length_singleton]
    cases hf : bs.find? (·.path.first == b.path.first) with
    | none =>
      have hnew : b.path.first ∉ (bs.map (·.path.first)).toFinset := by
        simpa using hf
      rw [Finset.card_insert_of_notMem hnew]
      simp only [Option.map_none, Option.toList_none, List.length_nil]
      omega
    | some c =>
      have hold : b.path.first ∈ (bs.map (·.path.first)).toFinset := by
        have hc : c.path.first = b.path.first := by simpa using List.find?_some hf
        rw [← hc, List.mem_toFinset]
        exact List.mem_map_of_mem (List.mem_of_find?_eq_some hf)
      rw [Finset.insert_eq_of_mem hold]
      simp only [Option.map_some, Option.toList_some, List.length_singleton]
      omega

theorem repeats_eq_nil_iff {bs : List Binding} :
    repeats bs = [] ↔ (bs.map (·.path.first)).Nodup := by
  have hl := length_repeats bs
  rw [← List.length_eq_zero_iff]
  constructor
  · intro h
    have hlen : (bs.map (·.path.first)).dedup.length = (bs.map (·.path.first)).length := by
      rw [← List.card_toFinset, List.length_map]
      omega
    exact List.dedup_eq_self.mp ((List.dedup_sublist _).eq_of_length hlen)
  · intro h
    rw [List.toFinset_card_of_nodup h, List.length_map] at hl
    omega

end Binding

namespace Checks

open Binding

theorem find?_concat (before : List Binding) {b : Binding} {name : String}
    (hb : b.path.first = .static name) (other : String) :
    (before ++ [b]).find? (·.path.first == .static other) =
      (before.find? (·.path.first == .static other)).or
        (if other = name then some b else none) := by
  rw [List.find?_append, List.find?_singleton, hb]
  by_cases h : other = name
  · simp [h]
  · simp [h, Ne.symm h]

/-- The search for names that come again remembers the first binding of each name that it has met,
and reports each later one with that. -/
theorem repeated_eq (seen : List (String × Range)) (before bs : List Binding)
    (hseen : ∀ name, seen.lookup name =
      (before.find? (·.path.first == .static name)).map (·.declaration.name.range))
    (hown : ∀ b ∈ bs, b.isOwn = true) :
    repeated seen (bs.filterMap ownName?) =
      ((bs.zipIdx before.length).filterMap fun (b, i) =>
        (((before ++ bs).take i).find? (·.path.first == b.path.first)).map (b, ·)).map
          fun (b, previous) => (b.declaration.name.range,
            .duplicate b.path.first previous.declaration.name.range) := by
  induction bs generalizing seen before with
  | nil => rfl
  | cons b bs ih =>
    obtain ⟨name, hname, ho⟩ := ownName?_of_isOwn (hown b List.mem_cons_self)
    have hrest := fun seen hseen => ih seen (before ++ [b]) hseen fun c hc =>
      hown c (List.mem_cons_of_mem _ hc)
    rw [List.length_append, List.length_singleton, List.append_assoc,
      List.singleton_append] at hrest
    rw [List.filterMap_cons_some ho, repeated, hseen, List.zipIdx_cons, List.filterMap_cons]
    dsimp only
    rw [List.take_left, hname]
    cases hf : before.find? (·.path.first == .static name) with
    -- the name is taken: what is remembered stays, and so does the first binding of each name
    | some previous =>
      rw [hrest seen fun other => ?_]
      · simp only [Option.map_some, List.map_cons, hname]
      · rw [hseen, find?_concat before hname]
        by_cases h : other = name
        · rw [h, hf, Option.some_or]
        · rw [if_neg h, Option.or_none]
    -- the name is new, and its binding is remembered as the first one
    | none =>
      rw [hrest ((name, b.declaration.name.range) :: seen) fun other => ?_]
      · simp only [Option.map_none]
      · rw [find?_concat before hname, List.lookup_cons, hseen]
        by_cases h : other = name
        · simp [h, hf]
        · rw [beq_false_of_ne h, if_neg h, Option.or_none]

/-- The diagnostics with the code of names that come again are those of such names. -/
theorem filter_run_duplicate (undefined : Bool) (file : FileId) (lines : Lines) (root : Node) :
    (run ⟨undefined, true⟩ file lines root).filter (·.code == some "E0004") =
      (duplicateBindings root).map fun f => f.2.diagnostic file lines f.1 := by
  have hd : ∀ f ∈ duplicateBindings root,
      (f.2.diagnostic file lines f.1).code = some "E0004" :=
    fun f hf => congrArg some (code_of_mem_duplicateBindings hf)
  have hu : ∀ f ∈ if undefined then undefinedNames root else [],
      (f.2.diagnostic file lines f.1).code ≠ some "E0004" := by
    intro f hf
    have hc : f.2.code = "E0001" := by
      cases undefined with
      | true => exact code_of_mem_undefinedNames hf
      | false => cases hf
    simp [Finding.diagnostic, hc]
  rw [run, findings, if_pos rfl, List.map_append, List.filter_append, List.filter_eq_nil_iff.mpr,
    List.filter_eq_self.mpr, List.nil_append]
  · rw [List.forall_mem_map]
    simpa using hd
  · rw [List.forall_mem_map]
    simpa using hu

end Checks

namespace Host

def own (h : Host) : List Binding := h.bindings.filter Binding.isOwn

theorem diagnostics_repeated (h : Host) (file : FileId) (lines : Lines) :
    (Checks.repeated [] (h.bindings.filterMap Checks.ownName?)).map
        (fun f => f.2.diagnostic file lines f.1) =
      (Binding.repeats h.own).map fun (b, previous) => b.clash file lines previous := by
  have hown : ∀ b ∈ h.own, b.isOwn = true := fun b hb => (List.mem_filter.mp hb).2
  have he := Checks.repeated_eq [] [] h.own (fun _ => rfl) hown
  rw [Binding.filterMap_ownName?]
  rw [own] at he ⊢
  rw [he, List.map_map]
  rfl

end Host

theorem length_flatMap_repeats (hosts : List Host) {clash : Binding × Binding → Diagnostic} :
    (hosts.flatMap fun h => (Binding.repeats h.own).map clash).length +
        (hosts.map fun h => (h.own.map (·.path.first)).toFinset.card).sum =
      (hosts.map fun h => h.own.length).sum := by
  induction hosts with
  | nil => rfl
  | cons h hosts ih =>
    have hl := Binding.length_repeats h.own
    simp only [List.flatMap_cons, List.length_append, List.length_map, List.map_cons,
      List.sum_cons] at ih ⊢
    omega

/-- For every node that binds names, in the order of the text, what is reported are the bindings
that come again, each at its name and with the first one of that name. So there are as many reports
as there are more bindings than names, and none exactly if all names of each node are different. -/
theorem Document.duplicates_eq (path : Path) (text : String) (file : FileId) (undefined : Bool) :
    let d := Document.of path text
    let hosts := d.root.descendants.filterMap Host.of?
    let reported := ((Checks.mk undefined true).run file d.lines d.root).filter
      (·.code == some "E0004")
    reported = hosts.flatMap (fun h =>
        (Binding.repeats h.own).map fun (b, previous) => b.clash file d.lines previous) ∧
      reported.length + (hosts.map fun h => (h.own.map (·.path.first)).toFinset.card).sum =
        (hosts.map fun h => h.own.length).sum ∧
      (reported = [] ↔ ∀ h ∈ hosts, (h.own.map (·.path.first)).Nodup) := by
  intro d hosts reported
  have he : reported = hosts.flatMap fun h =>
      (Binding.repeats h.own).map fun (b, previous) => b.clash file d.lines previous := by
    simp only [reported, Checks.filter_run_duplicate, Checks.duplicateBindings, List.map_flatMap,
      Host.diagnostics_repeated]
    rfl
  refine ⟨he, ?_, ?_⟩
  · rw [he]
    exact length_flatMap_repeats hosts
  · rw [he, List.flatMap_eq_nil_iff]
    simp only [List.map_eq_nil_iff, Binding.repeats_eq_nil_iff]

end NixScope
