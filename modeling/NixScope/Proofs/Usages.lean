import NixScope.Proofs.Cursor
import NixScope.Proofs.Segments

namespace NixScope

open Syntax

namespace Syntax

theorem mem_of_mem_takeWhile {α : Type} {p : α → Bool} {as bs : List α} {d x : α}
    (hd : p d = false) (hx : x ∈ (as ++ d :: bs).takeWhile p) : x ∈ as := by
  induction as with
  | nil => simp [hd] at hx
  | cons a as ih =>
    rw [List.cons_append, List.takeWhile_cons] at hx
    split at hx
    · obtain rfl | hx := List.mem_cons.mp hx
      · exact List.mem_cons_self
      · exact List.mem_cons_of_mem _ (ih hx)
    · cases hx

theorem Tree.Dotted.apart {ts : List Tree} (h : Dotted ts) {es : List Element}
    (ht : es.map Element.tree = ts)
    (hp : es.Pairwise fun a b => a.range.stop ≤ b.range.start)
    (hl : ∀ l, .leaf l ∈ es → l.range.start < l.range.stop) :
    (es.filterMap Element.node?).Pairwise (fun a b => a.range.stop < b.range.start) ∧
      ∀ c ∈ es.filterMap Element.node?, c.kind = .attr := by
  induction h generalizing es with
  | one us =>
    obtain ⟨e, es', rfl, he, hes⟩ := List.map_eq_cons_iff.mp ht
    obtain ⟨a, rfl, hk, -⟩ := Element.exists_node_of_tree he
    rw [List.map_eq_nil_iff.mp hes]
    exact ⟨List.pairwise_singleton _ _, fun c hc => List.mem_singleton.mp hc ▸ hk⟩
  | @cons us ls ts hleaf hne hts ih =>
    obtain ⟨e, es', rfl, he, hes⟩ := List.map_eq_cons_iff.mp ht
    obtain ⟨a, rfl, hk, -⟩ := Element.exists_node_of_tree he
    obtain ⟨els, es, rfl, hels, hes⟩ := List.map_eq_append_iff.mp hes
    have hleaves : ∀ e ∈ els, ∃ l, e = .leaf l := by
      intro e he
      obtain ⟨l, hl⟩ := hleaf e.tree (hels ▸ List.mem_map_of_mem he)
      obtain ⟨l, rfl, -⟩ := Element.exists_leaf_of_tree hl
      exact ⟨l, rfl⟩
    obtain ⟨d, hd⟩ : ∃ d, d ∈ els := by
      refine List.exists_mem_of_ne_nil els ?_
      rintro rfl
      exact hne hels.symm
    obtain ⟨l, rfl⟩ := hleaves d hd
    have hnil : els.filterMap Element.node? = [] := by
      rw [List.filterMap_eq_nil_iff]
      intro e he
      obtain ⟨l, rfl⟩ := hleaves e he
      rfl
    have hlt := hl l (List.mem_cons_of_mem _ (List.mem_append_left _ hd))
    rw [List.pairwise_cons, List.pairwise_append] at hp
    obtain ⟨hfirst, -, hsorted, hbetween⟩ := hp
    obtain ⟨hpair, hkinds⟩ := ih hes hsorted fun x hx =>
      hl x (List.mem_cons_of_mem _ (List.mem_append_right _ hx))
    rw [List.filterMap_cons_some (Element.node?_node a), List.filterMap_append, hnil,
      List.nil_append, List.pairwise_cons, List.forall_mem_cons]
    refine ⟨⟨fun c hc => ?_, hpair⟩, hk, hkinds⟩
    obtain ⟨e, he, hec⟩ := List.mem_filterMap.mp hc
    cases e with
    | leaf x => cases hec
    | node b =>
      cases hec
      have hal : a.range.stop ≤ l.range.start := hfirst _ (List.mem_append_left _ hd)
      have hlc : l.range.stop ≤ c.range.start := hbetween _ hd _ he
      omega

namespace Node

variable {n base path : Node}

theorem ancestors_of_mem_nodes {c : Node} (h : c ∈ n.nodes) : c.ancestors = c :: n.ancestors := by
  rw [ancestors, outer_of_mem_nodes h]
  rfl

/-- What stands in a selection from a variable: the variable, tokens, the path, and what follows. -/
structure SelectForm (n base path : Node) (before between after : List Element) : Prop where
  elements : n.elements = before ++ between ++ .node path :: after
  base_mem : .node base ∈ before
  others : ∀ c : Node, .node c ∈ before → c = base ∨ c.kind = .error
  leaves : ∀ e ∈ between, ∃ l, e = .leaf l
  dot : ∃ l, .leaf l ∈ between
  default : ∀ e ∈ after.head?, ∃ l, e = .leaf l

namespace Rooted

variable {root : Node} (h : root.Rooted)

include h

theorem leaf_lt_of_mem (hn : n ∈ root.descendants) {l : Leaf} (hl : .leaf l ∈ n.elements) :
    l.range.start < l.range.stop :=
  h.leaf_lt (List.mem_cons_of_mem _ (inside_subset hn _ (mem_inside.mpr (.inl hl))))

theorem attrs_apart (hp : path ∈ root.descendants) (hk : path.kind = .attrPath) :
    path.nodes.Pairwise (fun a b => a.range.stop < b.range.start) ∧
      ∀ c ∈ path.nodes, c.kind = .attr := by
  have hs := h.spelled_of_mem hp
  rw [hk] at hs
  have hd : Tree.Dotted path.trees := by
    generalize path.trees = ts at hs
    cases hs with
    | attrPath hd => exact hd
    | other hk => simp at hk
  exact hd.apart (tree_elements path) (pairwise_elements (h.wellPlaced_of_mem hp))
    fun l hl => h.leaf_lt_of_mem hp hl

theorem selectForm (hn : n ∈ root.descendants) (hk : n.kind = .select)
    (hb : Select.base? n = some base) (hbk : base.kind = .var) (hp : Select.path? n = some path) :
    ∃ before between after, n.SelectForm base path before between after := by
  have hs := h.spelled_of_mem hn
  rw [hk] at hs
  generalize ht : n.trees = ts at hs
  cases hs with
  | other hk => simp at hk
  | @select bs ls us rest hlone hleaf hdot hrest =>
    rw [← tree_elements] at ht
    obtain ⟨es, after, he, hes, hafter⟩ := List.map_eq_append_iff.mp ht
    obtain ⟨before, between, rfl, hbefore, hbetween⟩ := List.map_eq_append_iff.mp hes
    obtain ⟨e, after, rfl, hep, hbehind⟩ := List.map_eq_cons_iff.mp hafter
    obtain ⟨p, rfl, hpk, -⟩ := Element.exists_node_of_tree hep
    have hleaves : ∀ e ∈ between, ∃ l, e = .leaf l := by
      intro e he
      obtain ⟨l, hl⟩ := hleaf e.tree (hbetween ▸ List.mem_map_of_mem he)
      obtain ⟨l, rfl, -⟩ := Element.exists_leaf_of_tree hl
      exact ⟨l, rfl⟩
    obtain ⟨d, hd, hdk⟩ : ∃ e ∈ between, e.kind = .dot := by
      obtain ⟨t, htm, htk⟩ := hdot
      rw [← hbetween] at htm
      obtain ⟨e, he, rfl⟩ := List.mem_map.mp htm
      exact ⟨e, he, by rw [← Element.kind_tree, htk]⟩
    -- The search for the variable ends at the dot, so it finds it in front of the tokens.
    have hbase : .node base ∈ before := by
      obtain ⟨e, hem, heb⟩ := List.mem_filterMap.mp (List.mem_of_find?_eq_some hb)
      cases e with
      | leaf l => cases heb
      | node c =>
        cases heb
        obtain ⟨ls, rs, hbt⟩ := List.append_of_mem hd
        have hsplit : n.elements = before ++ ls ++ d :: (rs ++ .node p :: after) := by
          rw [he, hbt]
          simp only [List.append_assoc, List.cons_append]
        rw [hsplit] at hem
        obtain hm | hm := List.mem_append.mp (mem_of_mem_takeWhile (by simp [hdk]) hem)
        · exact hm
        · obtain ⟨l, hl⟩ := hleaves _ (hbt ▸ List.mem_append_left _ hm)
          cases hl
    have hothers : ∀ c, .node c ∈ before → c = base ∨ c.kind = .error := by
      intro c hc
      by_cases hce : c.kind = .error
      · exact .inr hce
      · exact .inl (eq_of_lone (hbefore ▸ hlone) hc hbase hce (by simp [hbk]))
    have hpath : p = path := by
      have hnone : (before.filterMap Element.node?).find? (·.kind == .attrPath) = none := by
        rw [List.find?_eq_none]
        intro c hc
        obtain ⟨e, hem, hec⟩ := List.mem_filterMap.mp hc
        cases e with
        | leaf l => cases hec
        | node c =>
          cases hec
          obtain rfl | hck := hothers _ hem <;> simp [*]
      have hnil : between.filterMap Element.node? = [] := by
        rw [List.filterMap_eq_nil_iff]
        intro e he
        obtain ⟨l, rfl⟩ := hleaves e he
        rfl
      rw [Select.path?, child?, nodes, he, List.filterMap_append, List.filterMap_append, hnil,
        List.append_nil, List.find?_append, hnone, Option.none_or,
        List.filterMap_cons_some (Element.node?_node p), List.find?_cons_of_pos (by simp [hpk]),
        Option.some.injEq] at hp
      exact hp
    subst hpath
    obtain ⟨l, rfl⟩ := hleaves d hd
    refine ⟨before, between, after, he, hbase, hothers, hleaves, ⟨l, hd⟩, fun e he => ?_⟩
    obtain ⟨t, ht⟩ := hrest e.tree (by rw [← hbehind, List.head?_map]; exact congrArg _ he)
    obtain ⟨l, rfl, -⟩ := Element.exists_leaf_of_tree ht
    exact ⟨l, rfl⟩

/-- What is in a selection from a variable is the variable, a node for what fits no rule, in the
path, or behind the word in front of the default. -/
theorem mem_select_cases (hn : n ∈ root.descendants) (hk : n.kind = .select)
    (hb : Select.base? n = some base) (hbk : base.kind = .var) (hp : Select.path? n = some path)
    {x : Node} (hx : .node x ∈ n.inside) :
    x = base ∨ x.kind = .error ∨ x ∈ path.descendants ∨ path.range.stop < x.range.start := by
  obtain ⟨before, between, after, hf⟩ := h.selectForm hn hk hb hbk hp
  obtain ⟨c, hc, hxc⟩ := node_mem_inside.mp hx
  have hcd := mem_descendants_of_mem_nodes hn hc
  have hel := node_mem_elements.mpr hc
  rw [hf.elements, List.mem_append, List.mem_append, List.mem_cons] at hel
  obtain (hel | hel) | hel | hel := hel
  · obtain rfl | hce := hf.others c hel
    · obtain ⟨l, he, -⟩ := h.word_of_mem hcd (.inl hbk)
      exact .inl (eq_of_nodes_eq_nil (nodes_of_elements he) hxc)
    · obtain rfl := eq_of_nodes_eq_nil (h.nodes_of_error hcd hce) hxc
      exact .inr (.inl hce)
  · obtain ⟨l, hl⟩ := hf.leaves _ hel
    cases hl
  · cases hel
    exact .inr (.inr (.inl hxc))
  · obtain ⟨e, es, rfl⟩ := List.exists_cons_of_ne_nil (List.ne_nil_of_mem hel)
    obtain ⟨l, rfl⟩ := hf.default e rfl
    obtain hel | hel := List.mem_cons.mp hel
    · cases hel
    have hl : l.range.start < l.range.stop := h.leaf_lt_of_mem hn (hf.elements ▸ by simp)
    have hsorted := pairwise_elements (h.wellPlaced_of_mem hn)
    rw [hf.elements, List.pairwise_append, List.pairwise_cons, List.pairwise_cons] at hsorted
    have hpl : path.range.stop ≤ l.range.start := hsorted.2.1.1 _ List.mem_cons_self
    have hlc : l.range.stop ≤ c.range.start := hsorted.2.1.2.1 _ hel
    have hcx : c.range.start ≤ x.range.start :=
      (Range.contains_iff.mp ((h.wellPlaced_of_mem hcd).contains_of_mem hxc)).1
    omega

end Rooted

end Node

end Syntax

namespace Segment

/-- Whether the segment is a variable, or an attribute that is spelled by a word or by a string in
which nothing is interpolated. -/
def isPlain (s : Segment) : Bool :=
  s.node.kind == .var || s.node.kind == .attr &&
    match Attr.spelling? s.node with
    | some (.ident _) => true
    | some (.string n) => (StringLiteral.value? n).isSome
    | _ => false

theorem plain_cases {s : Segment} (h : s.isPlain = true) :
    s.node.kind = .var ∨ s.node.kind = .attr ∧ ((∃ l, Attr.spelling? s.node = some (.ident l)) ∨
      ∃ n v, Attr.spelling? s.node = some (.string n) ∧ StringLiteral.value? n = some v) := by
  rw [isPlain, Bool.or_eq_true, Bool.and_eq_true, beq_iff_eq, beq_iff_eq] at h
  obtain h | ⟨hk, h⟩ := h
  · exact .inl h
  · refine .inr ⟨hk, ?_⟩
    split at h
    · rename_i l he
      exact .inl ⟨l, he⟩
    · rename_i n he
      obtain ⟨v, hv⟩ := Option.isSome_iff_exists.mp h
      exact .inr ⟨n, v, he, hv⟩
    · cases h

theorem staticName?_of_spelling {n : Node} (h : (∃ l, Attr.spelling? n = some (.ident l)) ∨
    ∃ c v, Attr.spelling? n = some (.string c) ∧ StringLiteral.value? c = some v) :
    ∃ name, Attr.staticName? n = some name := by
  rw [Attr.staticName?]
  obtain ⟨l, he⟩ | ⟨c, v, he, hv⟩ := h
  · exact ⟨l.text, by rw [he]⟩
  · exact ⟨v, by rw [he]; exact hv⟩

end Segment

namespace Usage

theorem of?_eq_none {n : Node} (h : n.kind.isUsage = false) : of? n = none := by
  rw [of?]
  cases hk : n.kind <;> first | rfl | simp [hk, Kind.isUsage] at h

theorem of?_selectBase {n base : Node} (hn : base ∈ n.nodes) (hk : n.kind = .select)
    (hb : Select.base? n = some base) (hbk : base.kind = .var) : of? base = none := by
  have hs : isSelectBase base = true := by
    rw [isSelectBase, Node.parent?_of_mem_nodes hn, Option.filter_some, if_pos (by simp [hk]),
      Option.bind_some, hb, Option.any_some, Spot.same]
    simp
  rw [of?, if_pos hbk, ofVar?, if_pos hs]

/-- How a usage stands in the tree: a variable that no selection starts from, a selection from a
variable, or a name in an `inherit`. -/
inductive Stands : Usage → Prop
  | var {n : Node} {name : String} (hk : n.kind = .var) (hn : Var.name? n = some name) :
      Stands ⟨n, ⟨.static name, n⟩, []⟩
  | select {n base path : Node} {name : String} (hk : n.kind = .select)
      (hb : Select.base? n = some base) (hbk : base.kind = .var) (hn : Var.name? base = some name)
      (hp : Select.path? n = some path) :
      Stands ⟨n, ⟨.static name, base⟩, (AttrPath.attrs path).map .ofAttr⟩
  | inherited {n attr : Node} (hk : n.kind = .inheritedName)
      (ha : InheritedName.attr? n = some attr) : Stands ⟨n, .ofAttr attr, []⟩

theorem stands_of_of? {n : Node} {u : Usage} (h : of? n = some u) : u.element = n ∧ u.Stands := by
  rw [of?] at h
  split at h
  · rename_i hk
    rw [ofVar?] at h
    split at h
    · cases h
    · obtain ⟨s, hs, rfl⟩ := Option.map_eq_some_iff.mp h
      obtain ⟨name, hname, rfl⟩ := Option.map_eq_some_iff.mp hs
      exact ⟨rfl, .var hk hname⟩
  split at h
  · rename_i hk
    rw [ofSelect?] at h
    split at h
    · rename_i base attr attrs hb ha
      obtain ⟨s, hs, rfl⟩ := Option.map_eq_some_iff.mp h
      obtain ⟨name, hname, rfl⟩ := Option.map_eq_some_iff.mp hs
      obtain ⟨path, hp, ha⟩ := Option.map_eq_some_iff.mp ha
      obtain ⟨hb, hbk⟩ := Option.filter_eq_some_iff.mp hb
      rw [← ha]
      exact ⟨rfl, .select hk hb (by simpa using hbk) hname hp⟩
    · cases h
  split at h
  · rename_i hk
    rw [ofInherited?] at h
    split at h
    · cases h
    split at h
    · cases h
    · obtain ⟨attr, ha, rfl⟩ := Option.map_eq_some_iff.mp h
      exact ⟨rfl, .inherited hk ha⟩
  · cases h

theorem mem_under {root : Node} {u : Usage} :
    u ∈ under root ↔ u.element ∈ root.descendants ∧ of? u.element = some u := by
  rw [under, List.mem_filterMap]
  constructor
  · rintro ⟨n, hn, hu⟩
    obtain ⟨rfl, -⟩ := stands_of_of? hu
    exact ⟨hn, hu⟩
  · exact fun h => ⟨u.element, h⟩

section

variable {root : Node} (h : root.Rooted) {u : Usage} (hu : u ∈ under root)

include h hu

omit h in
theorem stands_of_mem : u.Stands := (stands_of_of? (mem_under.mp hu).2).2

theorem name_of_mem_segments {s : Segment} (hs : s ∈ u.segments) :
    s.node ∈ u.element.descendants ∧ s.node.IsName := by
  have hn := (mem_under.mp hu).1
  have hself := u.element.mem_descendants_self
  cases stands_of_mem hu with
  | var hk =>
    cases List.mem_singleton.mp hs
    exact ⟨hself, .inl hk⟩
  | select hk hb hbk _ hp =>
    obtain ⟨before, between, after, hf⟩ := h.selectForm hn hk hb hbk hp
    obtain rfl | hs := List.mem_cons.mp hs
    · refine ⟨?_, .inl hbk⟩
      have hm := hf.elements ▸ List.mem_append_left _ (List.mem_append_left _ hf.base_mem)
      exact Node.mem_descendants_of_mem_nodes hself (Node.node_mem_elements.mp hm)
    · obtain ⟨attr, ha, rfl⟩ := List.mem_map.mp hs
      obtain ⟨ha, hak⟩ := Node.mem_nodes_of_childrenOf ha
      obtain ⟨hp, -⟩ := Node.mem_nodes_of_child? hp
      have hpd := Node.mem_descendants_of_mem_nodes hself hp
      exact ⟨Node.mem_descendants_of_mem_nodes hpd ha, .inr (.inr hak)⟩
  | inherited hk ha =>
    cases List.mem_singleton.mp hs
    obtain ⟨ha, hak⟩ := Node.mem_nodes_of_child? ha
    exact ⟨Node.mem_descendants_of_mem_nodes hself ha, .inr (.inr hak)⟩

theorem mem_root_of_mem_segments {s : Segment} (hs : s ∈ u.segments) :
    s.node ∈ root.descendants :=
  Node.descendants_trans (mem_under.mp hu).1 (name_of_mem_segments h hu hs).1

theorem contains_of_mem_segments {s : Segment} (hs : s ∈ u.segments) :
    u.element.range.start ≤ s.node.range.start ∧ s.node.range.stop ≤ u.element.range.stop := by
  have hw := h.wellPlaced_of_mem (mem_under.mp hu).1
  exact Range.contains_iff.mp (hw.contains_of_mem (name_of_mem_segments h hu hs).1)

theorem pairwise_segments :
    u.segments.Pairwise fun s t => s.node.range.stop < t.node.range.start := by
  have hn := (mem_under.mp hu).1
  cases stands_of_mem hu with
  | var hk => exact List.pairwise_singleton _ _
  | inherited hk ha => exact List.pairwise_singleton _ _
  | @select n base path name hk hb hbk hname hp =>
    obtain ⟨before, between, after, hf⟩ := h.selectForm hn hk hb hbk hp
    obtain ⟨hpn, hpk⟩ := Node.mem_nodes_of_child? hp
    have hpd := Node.mem_descendants_of_mem_nodes hn hpn
    obtain ⟨hpair, -⟩ := h.attrs_apart hpd hpk
    rw [segments, List.pairwise_cons, List.pairwise_map]
    refine ⟨fun s hs => ?_, hpair.filter _⟩
    obtain ⟨attr, ha, rfl⟩ := List.mem_map.mp hs
    obtain ⟨ha, -⟩ := Node.mem_nodes_of_childrenOf ha
    obtain ⟨l, hl⟩ := hf.dot
    have hel := hf.elements
    have hlt : l.range.start < l.range.stop :=
      h.leaf_lt_of_mem hn (hel ▸ List.mem_append_left _ (List.mem_append_right _ hl))
    have hsorted := Node.pairwise_elements (h.wellPlaced_of_mem hn)
    rw [hel, List.pairwise_append, List.pairwise_append] at hsorted
    obtain ⟨⟨-, -, hbl⟩, -, hlp⟩ := hsorted
    have hbl : base.range.stop ≤ l.range.start := hbl _ hf.base_mem _ hl
    have hlp : l.range.stop ≤ path.range.start :=
      hlp _ (List.mem_append_right _ hl) _ List.mem_cons_self
    have hpa := Node.contains_of_mem_inside (h.wellPlaced_of_mem hpd)
      (Node.mem_inside.mpr (.inl (Node.node_mem_elements.mpr ha)))
    have hpa : path.range.start ≤ attr.range.start := hpa.1
    have hgoal : base.range.stop < attr.range.start := by omega
    exact hgoal

theorem stop_lt_of_lt {i k : Nat} {s t : Segment} (hs : u.segments[i]? = some s)
    (ht : u.segments[k]? = some t) (hik : i < k) : s.node.range.stop < t.node.range.start := by
  obtain ⟨hi, rfl⟩ := List.getElem?_eq_some_iff.mp hs
  obtain ⟨hk, rfl⟩ := List.getElem?_eq_some_iff.mp ht
  exact List.pairwise_iff_getElem.mp (pairwise_segments h hu) i k hi hk hik

/-- No segment ends at an offset that another segment has in it. -/
theorem stop_ne_of_mem {s t : Segment} (hs : s ∈ u.segments) (ht : t ∈ u.segments) {o : Nat}
    (hl : s.node.range.start ≤ o) (hr : o < s.node.range.stop) : t.node.range.stop ≠ o := by
  obtain ⟨i, hi⟩ := List.getElem?_of_mem hs
  obtain ⟨k, hk⟩ := List.getElem?_of_mem ht
  obtain hik | rfl | hik := Nat.lt_trichotomy i k
  · have hst := stop_lt_of_lt h hu hi hk hik
    have hw : t.node.range.stop = t.node.range.start + _ :=
      (h.wellPlaced_of_mem (mem_root_of_mem_segments h hu ht)).stop_eq
    omega
  · obtain rfl := Option.some.inj (hi.symm.trans hk)
    omega
  · have hts := stop_lt_of_lt h hu hk hi hik
    omega

end

end Usage

namespace Syntax.Node.Rooted

variable {root n : Node} (h : root.Rooted) (hn : n ∈ root.descendants)

include h hn

theorem first_of_nameForm (hf : n.NameForm) (hne : n.elements ≠ []) :
    ∃ l, .leaf l ∈ n.inside ∧ l.range.start = n.range.start ∧
      (Cursor.isName l.kind = true ∨ l.kind = .dollarBrace ∧ ∃ c, n.elements = [.node c] ∧
        c.kind = .dynamic) := by
  have hw := h.wellPlaced_of_mem hn
  have hchild : ∀ {c : Node} {l : Leaf} {es : List Element}, n.elements = [.node c] →
      c.elements = .leaf l :: es → .leaf l ∈ n.inside ∧ l.range.start = n.range.start := by
    intro c l es he hs
    have hc : c ∈ n.nodes := by simp [nodes_of_elements he]
    have hcw := h.wellPlaced_of_mem (mem_descendants_of_mem_nodes hn hc)
    refine ⟨mem_inside.mpr (.inr ⟨c, hc, leaf_mem_inside hs⟩), ?_⟩
    exact (start_of_elements hcw hs).trans (start_of_elements hw he)
  cases hf with
  | missing he => exact absurd he hne
  | @word l he hl =>
    refine ⟨l, leaf_mem_inside he, start_of_elements hw he, .inl ?_⟩
    obtain hl | hl := hl <;> simp [hl, Cursor.isName]
  | @quoted c l es he hc hs hl =>
    obtain ⟨hm, hstart⟩ := hchild he hs
    exact ⟨l, hm, hstart, .inl (by simp [hl, Cursor.isName])⟩
  | @computed c l es he hc hs hl =>
    obtain ⟨hm, hstart⟩ := hchild he hs
    exact ⟨l, hm, hstart, .inr ⟨hl, c, he, hc⟩⟩

end Syntax.Node.Rooted

namespace Cursor

def usageAt? (offset : Nat) (n : Node) : Option (Usage × Nat) :=
  (Usage.of? n).bind fun u => (segment? offset u).map fun i => (u, i)

theorem usage?_eq_findSome? (root : Node) (offset : Nat) :
    usage? root offset = (around root offset).findSome? (usageAt? offset) := rfl

theorem usageAt?_eq_none {offset : Nat} {n : Node} (h : n.kind.isUsage = false) :
    usageAt? offset n = none := by
  rw [usageAt?, Usage.of?_eq_none h, Option.bind_none]

section

variable {root : Node} (h : root.Rooted) {s : Segment} (hs : s.node ∈ root.descendants)
  (hp : s.isPlain = true)

include h hs hp

theorem calm_of_isPlain : ∀ x, .node x ∈ s.node.inside → x.kind.isUsage = false := by
  intro x hx
  obtain hk | ⟨hk, hp⟩ := Segment.plain_cases hp
  · obtain ⟨l, he, -⟩ := h.word_of_mem hs (.inl hk)
    obtain ⟨c, hc, -⟩ := Node.node_mem_inside.mp hx
    rw [Node.nodes_of_elements he] at hc
    cases hc
  · obtain ⟨name, hname⟩ := Segment.staticName?_of_spelling hp
    exact h.calm_of_static hs hk hname x (Node.mem_descendants_of_mem_inside hx)

theorem first_of_isPlain :
    ∃ l, .leaf l ∈ s.node.inside ∧ l.range.start = s.node.range.start ∧ isName l.kind = true := by
  obtain hk | ⟨hk, hp⟩ := Segment.plain_cases hp
  · obtain ⟨l, he, hl⟩ := h.word_of_mem hs (.inl hk)
    exact ⟨l, Node.Rooted.leaf_mem_inside he,
      Node.start_of_elements (h.wellPlaced_of_mem hs) he, by simp [hl, isName]⟩
  · have hne : s.node.elements ≠ [] := by
      intro he
      simp [Attr.spelling?, he] at hp
    obtain ⟨l, hm, hstart, hl | ⟨-, c, he, hc⟩⟩ :=
      h.first_of_nameForm hs (h.nameForm_attr hs hk) hne
    · exact ⟨l, hm, hstart, hl⟩
    · simp [Attr.spelling?, he, Attr.spellingOf?, hc] at hp

end

section

variable {root : Node} (h : root.Rooted) {u : Usage} (hu : u ∈ Usage.under root) {i : Nat}
  {s : Segment} (hs : u.segments[i]? = some s) {o : Nat} (hl : s.node.range.start ≤ o)
  (hr : o < s.node.range.stop)

include h hu hs hl hr

theorem segment?_eq : segment? o u = some i := by
  obtain ⟨hi, hs⟩ := List.getElem?_eq_some_iff.mp hs
  rw [segment?, List.findIdx?_eq_some_iff_getElem]
  refine ⟨hi, ?_, fun j hj => ?_⟩
  · rw [hs, Range.touches]
    simp only [Bool.and_eq_true, decide_eq_true_eq]
    omega
  · have hlt := List.pairwise_iff_getElem.mp (Usage.pairwise_segments h hu) j i (by omega) hi hj
    rw [hs] at hlt
    rw [Range.touches, Bool.not_eq_true, Bool.and_eq_false_iff]
    right
    rw [decide_eq_false_iff_not]
    omega

theorem usageAt?_element : usageAt? o u.element = some (u, i) := by
  rw [usageAt?, (Usage.mem_under.mp hu).2, Option.bind_some, segment?_eq h hu hs hl hr,
    Option.map_some]

theorem findSome?_ancestors : s.node.ancestors.findSome? (usageAt? o) = some (u, i) := by
  have hn := (Usage.mem_under.mp hu).1
  have helement := usageAt?_element h hu hs hl hr
  have hm := List.mem_of_getElem? hs
  have hself : u.element.ancestors.findSome? (usageAt? o) = some (u, i) := by
    rw [Node.ancestors, List.findSome?_cons, helement]
  have hchild : ∀ {c : Node}, c ∈ u.element.nodes → usageAt? o c = none →
      c.ancestors.findSome? (usageAt? o) = some (u, i) := by
    intro c hc hnone
    rw [Node.ancestors_of_mem_nodes hc, List.findSome?_cons, hnone]
    exact hself
  cases Usage.stands_of_mem hu with
  | var hk =>
    cases List.mem_singleton.mp hm
    exact hself
  | inherited hk ha =>
    cases List.mem_singleton.mp hm
    obtain ⟨ha, hak⟩ := Node.mem_nodes_of_child? ha
    exact hchild ha (usageAt?_eq_none (by simp [Segment.ofAttr, hak, Kind.isUsage]))
  | @select n base path name hk hb hbk hname hp =>
    obtain ⟨hpn, hpk⟩ := Node.mem_nodes_of_child? hp
    obtain rfl | hm := List.mem_cons.mp hm
    · obtain ⟨before, between, after, hf⟩ := h.selectForm hn hk hb hbk hp
      have hbm := hf.elements ▸ List.mem_append_left _ (List.mem_append_left _ hf.base_mem)
      have hbn := Node.node_mem_elements.mp hbm
      apply hchild hbn
      rw [usageAt?, Usage.of?_selectBase hbn hk hb hbk, Option.bind_none]
    · obtain ⟨attr, ha, rfl⟩ := List.mem_map.mp hm
      obtain ⟨ha, hak⟩ := Node.mem_nodes_of_childrenOf ha
      have hnone : usageAt? o attr = none :=
        usageAt?_eq_none (by simp [hak, Kind.isUsage])
      rw [Segment.ofAttr, Node.ancestors_of_mem_nodes ha, List.findSome?_cons, hnone]
      exact hchild hpn (usageAt?_eq_none (by simp [hpk, Kind.isUsage]))

/-- The cursor in a plain segment finds the usage and the number of the segment. -/
theorem usage?_eq (hp : s.isPlain = true) : usage? root o = some (u, i) := by
  have hn := Usage.mem_root_of_mem_segments h hu (List.mem_of_getElem? hs)
  obtain ⟨first, hf, hfs, hname⟩ := first_of_isPlain h hn hp
  obtain ⟨l, he, hli⟩ := leaf?_mem_inside h hn hf hfs hname hl hr
  obtain ⟨path, ha, hpath⟩ := around_eq he hli
  have hnone : path.findSome? (usageAt? o) = none := by
    rw [List.findSome?_eq_none_iff]
    intro x hx
    exact usageAt?_eq_none (calm_of_isPlain h hn hp x (hpath x hx))
  rw [usage?_eq_findSome?, ha, List.findSome?_append, hnone, Option.none_or]
  exact findSome?_ancestors h hu hs hl hr

end

end Cursor

end NixScope
