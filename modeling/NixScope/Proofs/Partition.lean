import NixScope.Proofs.Handles
import NixScope.Proofs.References

namespace NixScope

open Syntax

namespace Syntax

theorem Spot.pointer_of_same {s t : Spot} (h : s.same t = true) : s.pointer = t.pointer := by
  rw [same, Bool.or_eq_true, Bool.and_eq_true, Bool.and_eq_true, beq_iff_eq, beq_iff_eq] at h
  obtain rfl | ⟨⟨h, -⟩, -⟩ := h
  · rfl
  · exact h

namespace Node

theorem mem_nodes_of_exprBefore? {n c : Node} {k : Kind} (h : n.exprBefore? k = some c) :
    c ∈ n.nodes := by
  obtain ⟨e, he, hc⟩ := List.mem_filterMap.mp (List.mem_of_find?_eq_some h)
  exact List.mem_filterMap.mpr ⟨e, (List.takeWhile_sublist _).subset he, hc⟩

theorem exists_child?_of_trees {n : Node} {k : Kind} {us : List Tree}
    (h : .branch k us ∈ n.trees) : ∃ c, n.child? k = some c := by
  rw [← tree_elements] at h
  obtain ⟨e, he, ht⟩ := List.mem_map.mp h
  obtain ⟨c, rfl, hk, -⟩ := Element.exists_node_of_tree ht
  exact Option.isSome_iff_exists.mp
    (List.find?_isSome.mpr ⟨c, node_mem_elements.mp he, by simp [hk]⟩)

namespace Rooted

variable {root n : Node} (h : root.Rooted) (hn : n ∈ root.descendants)

include h hn

theorem attrs_ne_nil (hk : n.kind = .attrPath) : AttrPath.attrs n ≠ [] := by
  have hs := h.spelled_of_mem hn
  rw [hk] at hs
  obtain ⟨us, hu⟩ : ∃ us, .branch .attr us ∈ n.trees := by
    generalize n.trees = ts at hs
    cases hs with
    | attrPath hd =>
      cases hd with
      | one us => exact ⟨us, List.mem_cons_self⟩
      | cons us => exact ⟨us, List.mem_cons_self⟩
    | other hk => simp at hk
  obtain ⟨c, hc⟩ := exists_child?_of_trees hu
  obtain ⟨hc, hck⟩ := mem_nodes_of_child? hc
  exact List.ne_nil_of_mem (List.mem_filter.mpr ⟨hc, by simp [hck]⟩)

theorem exists_path (hk : n.kind = .select) :
    ∃ path, Select.path? n = some path ∧ AttrPath.attrs path ≠ [] := by
  have hs := h.spelled_of_mem hn
  rw [hk] at hs
  obtain ⟨us, hu⟩ : ∃ us, .branch .attrPath us ∈ n.trees := by
    generalize n.trees = ts at hs
    cases hs with
    | @select _ _ us => exact ⟨us, List.mem_append_right _ List.mem_cons_self⟩
    | other hk => simp at hk
  obtain ⟨path, hp⟩ := exists_child?_of_trees hu
  obtain ⟨hpn, hpk⟩ := mem_nodes_of_child? hp
  exact ⟨path, hp, h.attrs_ne_nil (mem_descendants_of_mem_nodes hn hpn) hpk⟩

theorem exists_attr (hk : n.kind = .inheritedName) :
    ∃ attr, InheritedName.attr? n = some attr := by
  have hs := h.spelled_of_mem hn
  rw [hk] at hs
  obtain ⟨us, hu⟩ : ∃ us, .branch .attr us ∈ n.trees := by
    generalize n.trees = ts at hs
    cases hs with
    | inheritedName us => exact ⟨us, List.mem_cons_self⟩
    | other hk => simp at hk
  exact exists_child?_of_trees hu

theorem exists_name_of_var (hk : n.kind = .var) :
    ∃ name, Var.name? n = some name ∧ 0 < Tree.widthOf n.trees := by
  obtain ⟨l, he, hl⟩ := h.word_of_mem hn (.inl hk)
  have ht : n.token? .ident = some l := by simp [token?, leaves, he, Element.leaf?, hl]
  exact ⟨l.text, by rw [Var.name?, ht]; rfl, h.width_pos_of_token? hn ht⟩

end Rooted

end Node

end Syntax

def InheritsFromScope (n : Node) : Prop :=
  n.kind = .inheritedName ∧
    ∃ clause, InheritedName.inherit? n = some clause ∧ Inherit.source? clause = none

namespace Usage

variable {root : Node}

theorem eq_of_element_eq {u v : Usage} (hu : u ∈ under root) (hv : v ∈ under root)
    (he : u.element = v.element) : u = v := by
  have hof := (mem_under.mp hu).2
  rw [he, (mem_under.mp hv).2, Option.some.injEq] at hof
  exact hof.symm

theorem inheritsFromScope_of_mem {u : Usage} (hu : u ∈ under root)
    (hk : u.element.kind = .inheritedName) : InheritsFromScope u.element := by
  have hof := (mem_under.mp hu).2
  rw [of?, if_neg (by simp [hk]), if_neg (by simp [hk]), if_pos hk, ofInherited?] at hof
  split at hof
  · cases hof
  · rename_i clause hc
    split at hof
    · cases hof
    · rename_i hs
      exact ⟨hk, clause, hc, by simpa using hs⟩

/-- A usage that begins with a variable is that variable, or a selection from it; and then the
variable is no usage. -/
theorem element_cases {u : Usage} (hu : u ∈ under root) (hk : u.first.node.kind = .var) :
    u.element = u.first.node ∨ u.first.node ∈ u.element.nodes ∧ of? u.first.node = none := by
  cases stands_of_mem hu with
  | var hkv hname => exact .inl rfl
  | select hks hb hbk hname hp =>
    have hm := Node.mem_nodes_of_exprBefore? hb
    exact .inr ⟨hm, of?_selectBase hm hks hb hbk⟩
  | inherited hki ha =>
    have hak := (Node.mem_nodes_of_child? ha).2
    simp [Segment.ofAttr, hak] at hk

/-- No two usages begin with the same variable. -/
theorem eq_of_first_eq {u v : Usage} (hu : u ∈ under root) (hv : v ∈ under root)
    (hk : v.first.node.kind = .var) (he : u.first.node = v.first.node) : u = v := by
  apply eq_of_element_eq hu hv
  have hofu := (mem_under.mp hu).2
  have hofv := (mem_under.mp hv).2
  have hcu := element_cases hu (he ▸ hk)
  rw [he] at hcu
  obtain hu' | ⟨hun, hunone⟩ := hcu <;> obtain hv' | ⟨hvn, hvnone⟩ := element_cases hv hk
  · rw [hu', hv']
  · rw [hu', hvnone] at hofu
    cases hofu
  · rw [hv', hunone] at hofv
    cases hofv
  · exact Node.eq_of_mem_nodes hun hvn

theorem rest_kind {u : Usage} (hu : u ∈ under root) {s : Segment} (hs : s ∈ u.rest) :
    s.node.kind = .attr := by
  cases stands_of_mem hu with
  | var => cases hs
  | inherited => cases hs
  | select hk hb hbk hname hp =>
    obtain ⟨attr, ha, rfl⟩ := List.mem_map.mp hs
    exact (Node.mem_nodes_of_childrenOf ha).2

section

variable (h : root.Rooted)

include h

theorem exists_select {n : Node} (hn : n ∈ root.descendants) (hw : 0 < Tree.widthOf n.trees)
    (hs : isSelectBase n = true) :
    ∃ p ∈ root.descendants, p.kind = .select ∧ Select.base? p = some n := by
  obtain ⟨base, hb, hsame⟩ := (Option.any_eq_true _ _).mp hs
  obtain ⟨p, hp, hb⟩ := Option.bind_eq_some_iff.mp hb
  obtain ⟨hp, hk⟩ := Option.filter_eq_some_iff.mp hp
  obtain rfl | ⟨q, hq, hnq⟩ := Node.exists_parent hn
  · rw [Node.parent?, Node.outer, h.above] at hp
    cases hp
  · rw [Node.parent?_of_mem_nodes hnq, Option.some.injEq] at hp
    subst hp
    have hbd := Node.mem_descendants_of_mem_nodes hq (Node.mem_nodes_of_exprBefore? hb)
    obtain rfl := h.eq_of_pointer hn hbd hw (Spot.pointer_of_same hsame).symm
    exact ⟨q, hq, by simpa using hk, hb⟩

theorem exists_of_var {n : Node} (hn : n ∈ root.descendants) (hk : n.kind = .var) :
    ∃ u ∈ under root, u.first.node = n := by
  obtain ⟨name, hname, hw⟩ := h.exists_name_of_var hn hk
  have hsegment : Segment.ofVar? n = some ⟨.static name, n⟩ := by
    rw [Segment.ofVar?, hname, Option.map_some]
  by_cases hs : isSelectBase n = true
  · obtain ⟨p, hp, hpk, hb⟩ := exists_select h hn hw hs
    obtain ⟨path, hpath, hne⟩ := h.exists_path hp hpk
    obtain ⟨attr, attrs, hattrs⟩ := List.exists_cons_of_ne_nil hne
    refine ⟨⟨p, ⟨.static name, n⟩, (attr :: attrs).map .ofAttr⟩, mem_under.mpr ⟨hp, ?_⟩, rfl⟩
    have hbase : (some n).filter (·.kind == .var) = some n := by simp [hk]
    rw [of?, if_neg (by simp [hpk]), if_pos hpk, ofSelect?, hb, hbase, hpath, Option.map_some,
      hattrs]
    simp [hsegment]
  · refine ⟨⟨n, ⟨.static name, n⟩, []⟩, mem_under.mpr ⟨hn, ?_⟩, rfl⟩
    rw [of?, if_pos hk, ofVar?, if_neg hs, hsegment, Option.map_some]

theorem exists_of_inherited {n : Node} (hn : n ∈ root.descendants) (hi : InheritsFromScope n) :
    ∃ u ∈ under root, u.element = n := by
  obtain ⟨hk, clause, hc, hs⟩ := hi
  obtain ⟨attr, ha⟩ := h.exists_attr hn hk
  refine ⟨⟨n, .ofAttr attr, []⟩, mem_under.mpr ⟨hn, ?_⟩, rfl⟩
  simp [of?, hk, ofInherited?, hc, hs, ha]

theorem first_range_lt {u : Usage} (hu : u ∈ under root) :
    u.first.node.range.start < u.first.node.range.stop := by
  have hm : u.first ∈ u.segments := List.mem_cons_self
  have hn := mem_root_of_mem_segments h hu hm
  apply h.range_lt hn
  cases stands_of_mem hu with
  | var hk hname =>
    obtain ⟨-, -, hw⟩ := h.exists_name_of_var hn hk
    exact hw
  | select hk hb hbk hname hp =>
    obtain ⟨-, -, hw⟩ := h.exists_name_of_var hn hbk
    exact hw
  | inherited hk ha =>
    obtain ⟨ham, hak⟩ := Node.mem_nodes_of_child? ha
    exact h.width_pos_of_inheritedName (mem_under.mp hu).1 hk ham hak

theorem start_lt_of_mem_inside {u v : Usage} (hu : u ∈ under root) (hv : v ∈ under root)
    (hi : .node v.element ∈ u.element.inside) :
    u.element.range.start < v.element.range.start := by
  obtain ⟨k, a, ha, hak, hva⟩ | hbehind := mem_segment_or_behind h hv hu hi
  · have hm := List.mem_of_getElem? ha
    have hstart := (contains_of_mem_segments h hu hm).1
    exact Nat.lt_of_le_of_lt hstart
      (lt_of_mem_attr h hv (mem_root_of_mem_segments h hu hm) hak hva)
  · have hm : u.first ∈ u.segments := List.mem_cons_self
    have hstart := (contains_of_mem_segments h hu hm).1
    have hlt := first_range_lt h hu
    have hstop := hbehind _ hm
    omega

/-- No two usages start at one offset, and they are listed in the order of the text. -/
theorem pairwise_start : (under root).Pairwise fun u v => u.range.start < v.range.start := by
  refine (List.Pairwise.and_mem.mp (pairwise_under h)).imp ?_
  rintro u v ⟨hu, hv, hi | hb⟩
  · exact start_lt_of_mem_inside h hu hv hi
  · have hlt := h.range_lt (mem_under.mp hu).1 (width_pos_of_mem_under h hu)
    exact Nat.lt_of_lt_of_le hlt hb

end

/-- Every variable of a file is the first segment of one usage, every name that an `inherit` takes
from the scopes around is one usage, and there are no other usages. A selection has a path with an
attribute in it. The segments of a usage are the attributes of its path; they stand in it apart and
in order, and all but the first are attribute nodes. Usages start one behind the other. -/
theorem under_partition (text : String) :
    let root := (parse text).root
    (∀ n ∈ root.descendants, n.kind = .var → ∃! u, u ∈ under root ∧ u.first.node = n) ∧
      (∀ n ∈ root.descendants, InheritsFromScope n → ∃! u, u ∈ under root ∧ u.element = n) ∧
      (∀ u ∈ under root, u.first.node ∈ root.descendants ∧ u.first.node.kind = .var ∨
        u.element ∈ root.descendants ∧ InheritsFromScope u.element) ∧
      (∀ n ∈ root.descendants, n.kind = .select →
        ∃ path, Select.path? n = some path ∧ AttrPath.attrs path ≠ []) ∧
      (∀ u ∈ under root, u.path.toList = u.segments.map (·.name) ∧
        (∀ s ∈ u.rest, s.node.kind = .attr) ∧
        u.segments.Pairwise (fun s t => s.node.range.start < t.node.range.start ∧
          s.node.range.stop ≤ t.node.range.start) ∧
        ∀ s ∈ u.segments, u.range.contains s.node.range = true) ∧
      (under root).Pairwise fun u v => u.range.start < v.range.start := by
  intro root
  have h : root.Rooted := Parse.rooted text
  refine ⟨fun n hn hk => ?_, fun n hn hi => ?_, fun u hu => ?_, fun n hn hk => h.exists_path hn hk,
    fun u hu => ⟨path_toList u, fun s hs => rest_kind hu hs, ?_, fun s hs => ?_⟩,
    pairwise_start h⟩
  · obtain ⟨u, hu, rfl⟩ := exists_of_var h hn hk
    exact ⟨u, ⟨hu, rfl⟩, fun v hv => eq_of_first_eq hv.1 hu hk hv.2⟩
  · obtain ⟨u, hu, rfl⟩ := exists_of_inherited h hn hi
    exact ⟨u, ⟨hu, rfl⟩, fun v hv => eq_of_element_eq hv.1 hu hv.2⟩
  · have hn := mem_root_of_mem_segments h hu (List.mem_cons_self : u.first ∈ u.segments)
    have helement := (mem_under.mp hu).1
    cases stands_of_mem hu with
    | var hk hname => exact .inl ⟨hn, hk⟩
    | select hk hb hbk hname hp => exact .inl ⟨hn, hbk⟩
    | inherited hk ha => exact .inr ⟨helement, inheritsFromScope_of_mem hu hk⟩
  · refine ((pairwise_starts h hu).and (pairwise_segments h hu)).imp ?_
    rintro s t ⟨hstart, hstop⟩
    exact ⟨hstart, Nat.le_of_lt hstop⟩
  · exact Range.contains_iff.mpr (contains_of_mem_segments h hu hs)

end Usage

end NixScope
