import NixScope.Proofs.Candidates
import NixScope.Proofs.Resolution
import NixScope.Proofs.Usages

namespace NixScope

open Syntax

namespace Usage

section

variable {root : Node} (h : root.Rooted) {u : Usage} (hu : u ∈ under root)

include h hu

theorem width_pos_of_mem_under : 0 < Tree.widthOf u.element.trees := by
  have hn := (mem_under.mp hu).1
  cases stands_of_mem hu with
  | var hk hname =>
    obtain ⟨l, hl, -⟩ := Option.map_eq_some_iff.mp hname
    exact h.width_pos_of_token? hn hl
  | @select n base path name hk hb hbk hname hp =>
    obtain ⟨l, hl, -⟩ := Option.map_eq_some_iff.mp hname
    obtain ⟨before, between, after, hf⟩ := h.selectForm hn hk hb hbk hp
    have hbm := hf.elements ▸ List.mem_append_left _ (List.mem_append_left _ hf.base_mem)
    have hbn := Node.node_mem_elements.mp hbm
    have hw := h.width_pos_of_token? (Node.mem_descendants_of_mem_nodes hn hbn) hl
    exact h.width_pos hn (Node.mem_descendants_of_mem_nodes n.mem_descendants_self hbn) hw
  | @inherited n attr hk ha =>
    obtain ⟨ham, hak⟩ := Node.mem_nodes_of_child? ha
    have hw := h.width_pos_of_inheritedName hn hk ham hak
    exact h.width_pos hn (Node.mem_descendants_of_mem_nodes n.mem_descendants_self ham) hw

theorem find?_handle : u.handle.find? root = some u := by
  obtain ⟨hn, hof⟩ := mem_under.mp hu
  have hf := h.find? hn (width_pos_of_mem_under h hu)
  rw [Handle.find?, handle, hf, Option.bind_some, hof]
  simp

end

end Usage

namespace Symbol

/-- What a symbol is reached by from a usage: it is a candidate for a segment, or a candidate for
some attribute of a symbol that is reached. -/
inductive Reached (root : Node) (u : Usage) : Symbol → Prop
  | candidate {s : Symbol} (i : Nat) (hs : s ∈ (Resolution.of root u).symbols i) : Reached root u s
  | member {s t : Symbol} (a : Attribute) (hs : Reached root u s) (ht : t ∈ s.resolve root a) :
      Reached root u t

theorem find?_eq_some_iff {root : Node} {s : Symbol} :
    s.find? root = some s ↔ s.isLive root = true := by
  rw [find?, Option.ite_none_right_eq_some]
  exact and_iff_left rfl

section

variable {root : Node} (h : root.Rooted)

include h

theorem exists_host {p : Pointer} {path : AttributePath}
    (hl : (declared p path).isLive root = true) :
    ∃ n ∈ root.descendants, p.find? root = some n ∧ Host.of? n = some ⟨n⟩ := by
  rw [isLive, declarations] at hl
  cases hf : (p.find? root).bind Host.of? with
  | none => simp [hf] at hl
  | some host =>
    obtain ⟨n, hn, hof⟩ := Option.bind_eq_some_iff.mp hf
    obtain ⟨-, hof'⟩ := Option.ite_none_right_eq_some.mp hof
    cases hof'
    exact ⟨n, h.mem_of_find? hn, hn, hof⟩

theorem isLive_declared {n : Node} (hn : n ∈ root.descendants) (hof : Host.of? n = some ⟨n⟩)
    {path : AttributePath} (hd : (Host.mk n).declares path = true) :
    (declared n.pointer path).isLive root = true := by
  obtain ⟨hdecl, hne⟩ := declarations_of_declares h hn hof hd
  rw [isLive, hdecl]
  simpa using hne

theorem isLive_resolveName {n : Node} {a : Attribute} (hn : n ∈ root.descendants) {s : Symbol}
    (hs : s ∈ Scope.resolveName n a) : s.isLive root = true := by
  rw [Scope.resolveName] at hs
  split at hs
  · rename_i host hf
    obtain ⟨ho, hof, -⟩ := Scope.mem_hosts (List.mem_of_find?_eq_some hf)
    have hd := Node.mem_descendants_of_mem_outer h.above hn _ ho
    cases List.mem_singleton.mp hs
    exact isLive_declared h hd hof (by simpa using List.find?_some hf)
  split at hs
  · cases List.mem_singleton.mp hs
    rfl
  · obtain ⟨b, -, rfl⟩ := Option.map_eq_some_iff.mp (Option.mem_toList.mp hs)
    rfl

/-- A candidate for an attribute of a live symbol is live, whatever the attribute. -/
theorem isLive_resolve {s t : Symbol} {a : Attribute} (hs : s.isLive root = true)
    (ht : t ∈ s.resolve root a) : t.isLive root = true := by
  rw [resolve] at ht
  split at ht
  · cases List.mem_singleton.mp ht
    exact hs
  · cases s with
    | declared p path =>
      obtain ⟨n, hn, hf, hof⟩ := exists_host h hs
      have hk : (declared p path).knownMembers root a = declaredMembers root ⟨n⟩ path a := by
        simp [knownMembers, hf, hof]
      rw [hk] at ht
      obtain ⟨hd, rfl⟩ | ⟨m, hm, hmo, hd, rfl⟩ := declaredMembers_cases h ht
      · exact isLive_declared h hn hof hd
      · exact isLive_declared h hm hmo hd
    | builtin b =>
      obtain ⟨c, -, rfl⟩ := Option.map_eq_some_iff.mp (Option.mem_toList.mp ht)
      rfl
    | adHoc b => cases ht
    | member p b => cases ht

/-- Whatever is reached from a usage is live. -/
theorem Reached.isLive {u : Usage} (hu : u ∈ Usage.under root) {s : Symbol}
    (hs : Reached root u s) : s.isLive root = true := by
  induction hs with
  | candidate i hs =>
    have hn := (Usage.mem_under.mp hu).1
    exact Resolution.forall_symbols (fun s a t hs ht => isLive_resolve h hs ht)
      (fun s hs => isLive_resolveName h hn hs) hs
  | member a hs ht ih => exact isLive_resolve h ih ht

end

end Symbol

/-- In the file itself, the handle of a usage finds the usage, and every symbol that is reached from
it is found again. A declared one has its host in the file and is declared there. -/
theorem handles_survive (text : String) (u : Usage) (hu : u ∈ Usage.under (parse text).root) :
    u.handle.find? (parse text).root = some u ∧
      ∀ s, Symbol.Reached (parse text).root u s →
        s.find? (parse text).root = some s ∧
          ∀ p path, s = .declared p path →
            (∃ n ∈ (parse text).root.descendants, n.pointer = p ∧
              s.host? (parse text).root = some ⟨n⟩) ∧
            s.declarations (parse text).root ≠ [] := by
  have h := Parse.rooted text
  refine ⟨Usage.find?_handle h hu, fun s hs => ?_⟩
  have hl := hs.isLive h hu
  refine ⟨Symbol.find?_eq_some_iff.mpr hl, ?_⟩
  rintro p path rfl
  obtain ⟨n, hn, hf, hof⟩ := Symbol.exists_host h hl
  refine ⟨⟨n, hn, Pointer.eq_of_find? hf, ?_⟩, ?_⟩
  · rw [Symbol.host?, hf, Option.bind_some, hof]
  · simpa [Symbol.isLive] using hl

theorem handles_survive_member :
    ∃ u ∈ Usage.under (parse "let a.b = { c = 1; }; in a.b").root,
      u.handle.find? (parse "let a.b = { c = 1; }; in a.b").root = some u ∧
        ∃ s, Symbol.Reached (parse "let a.b = { c = 1; }; in a.b").root u s ∧ s.name = "c" ∧
          s.isAdHoc = false ∧ s.find? (parse "let a.b = { c = 1; }; in a.b").root = some s := by
  have hs : ((Usage.under (parse "let a.b = { c = 1; }; in a.b").root).any fun u =>
      ((Resolution.of (parse "let a.b = { c = 1; }; in a.b").root u).symbols 1).any fun s =>
        (s.resolve (parse "let a.b = { c = 1; }; in a.b").root (.static "c")).any fun t =>
          t.name == "c" && !t.isAdHoc) = true := by
    decide +kernel
  obtain ⟨u, hu, hs⟩ := List.any_eq_true.mp hs
  obtain ⟨s, hs, ht⟩ := List.any_eq_true.mp hs
  obtain ⟨t, ht, hn⟩ := List.any_eq_true.mp ht
  have hr : Symbol.Reached (parse "let a.b = { c = 1; }; in a.b").root u t :=
    .member (.static "c") (.candidate 1 hs) ht
  obtain ⟨hf, hall⟩ := handles_survive _ u hu
  rw [Bool.and_eq_true, beq_iff_eq, Bool.not_eq_true'] at hn
  exact ⟨u, hu, hf, t, hr, hn.1, hn.2, (hall t hr).1⟩

end NixScope
