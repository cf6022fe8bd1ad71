import Mathlib.Data.List.Forall2
import NixScope.Proofs.NestedText
import NixScope.Proofs.Nests

namespace NixScope

open Syntax Node

namespace NamePath

/-- Where names with dots between them stand that are written at an offset. -/
def namePlaces : (start : Nat) → List String → List Range
  | _, [] => []
  | start, name :: names =>
    let stop := start + (Attribute.static name).render.utf8ByteSize
    ⟨start, stop⟩ :: namePlaces (stop + 1) names

/-- Where the names in nested sets stand that are written at an offset: each path behind `{ `, and
the next set behind ` = `. -/
def valuePlaces : (start : Nat) → List NamePath → List Range
  | _, [] => []
  | start, g :: gs =>
    namePlaces (start + 2) g.toList ++ valuePlaces (start + 2 + g.render.utf8ByteSize + 3) gs

section

variable (above : List Spot) (start index : Nat)

theorem range_laid (kind : Kind) (ts : List Tree) :
    (laid above start index kind ts).range = ⟨start, start + Tree.widthOf ts⟩ :=
  congrArg Pointer.range (pointer_laid above start index kind ts)

theorem width_content (name : String) :
    Tree.widthOf (Attribute.content name) = (Attribute.static name).render.utf8ByteSize := by
  rw [← Term.width_of_chars (Attribute.chars_tree name), Attribute.tree, Tree.width_branch]

theorem width_path (first : String) (rest : List String) :
    Tree.widthOf (AttributePath.content first rest) =
      (NamePath.mk first rest).render.utf8ByteSize := by
  have hw := Term.width_of_chars (t := .branch .attrPath (AttributePath.content first rest))
    (chars_content first rest)
  rwa [Tree.width_branch] at hw

theorem map_range_dotted (names : List String) :
    ((laidAll above start index (Grammar.dotted (names.map Attribute.tree))).filterMap
      Element.node?).map (·.range) = namePlaces (start + 1) names := by
  induction names generalizing start index with
  | nil => rfl
  | cons name names ih =>
    have hl : laidAll above start index (Grammar.dotted ((name :: names).map Attribute.tree)) =
        .leaf ⟨⟨Token.dot, ⟨start, start + 1⟩⟩, above⟩ ::
          .node (laid above (start + 1) (index + 1) .attr (Attribute.content name)) ::
          laidAll above (start + 1 + Tree.widthOf (Attribute.content name)) (index + 2)
            (Grammar.dotted (names.map Attribute.tree)) := rfl
    rw [hl, List.filterMap_cons_none rfl, List.filterMap_cons_some (Element.node?_node _),
      List.map_cons, ih, range_laid, width_content, namePlaces]

theorem map_range_content (first : String) (rest : List String) :
    (laid above start index .attrPath (AttributePath.content first rest)).nodes.map (·.range) =
      namePlaces start (first :: rest) := by
  have hl : ∀ above, laidAll above start 0 (AttributePath.content first rest) =
      .node (laid above start 0 .attr (Attribute.content first)) ::
        laidAll above (start + Tree.widthOf (Attribute.content first)) 1
          (Grammar.dotted (rest.map Attribute.tree)) := fun _ => rfl
  rw [nodes_laid, hl, List.filterMap_cons_some (Element.node?_node _), List.map_cons,
    map_range_dotted, range_laid, width_content, namePlaces]

theorem parts_pathDefinition (first : String) (rest : List String) {kind : Kind}
    (hk : kind.isExpr = true) (ts : List Tree) :
    let d := Tree.pathDefinition first rest (.branch kind ts)
    AttrPathValue.path? (ofTree above start index d) =
        some (laid (aboveParts above start index d) start 0 .attrPath
          (AttributePath.content first rest)) ∧
      AttrPathValue.value? (ofTree above start index d) =
        some (laid (aboveParts above start index d)
          (start + Tree.widthOf (AttributePath.content first rest) + 3) 4 kind ts) := by
  intro d
  have he : ∀ above, laidAll above start 0 d.children =
      [.node (laid above start 0 .attrPath (AttributePath.content first rest)),
        .leaf ⟨⟨Token.space, _⟩, above⟩, .leaf ⟨⟨Token.assign, _⟩, above⟩,
        .leaf ⟨⟨Token.space, _⟩, above⟩,
        .node (laid above (start + Tree.widthOf (AttributePath.content first rest) + 3) 4 kind ts),
        .leaf ⟨⟨Token.semicolon, _⟩, above⟩] := fun _ => rfl
  constructor
  · rw [AttrPathValue.path?, child?, ofTree, nodes_laid, he]
    rfl
  · rw [AttrPathValue.value?, exprAfter?, ofTree, elements_laid, he]
    exact List.find?_cons_of_pos hk

end

end NamePath

namespace Attribute

/-- The node is what an attribute of the name is written as, wherever that stands. -/
def IsLaid (n : Node) (name : String) : Prop :=
  ∃ above start index, n = laid above start index .attr (content name)

variable {n : Node} {name : String}

theorem IsLaid.ofNode_eq (h : IsLaid n name) : ofNode n = .static name := by
  obtain ⟨above, start, index, rfl⟩ := h
  exact ofNode_laid above start index name

theorem IsLaid.text_eq (h : IsLaid n name) : n.text = (static name).render := by
  obtain ⟨above, start, index, rfl⟩ := h
  have ht : (laid above start index .attr (content name)).tree = tree name := by
    rw [Spot.tree_eq]
    exact congrArg _ (Tree.tree_placeAll start 0 (content name))
  have hj : (tree name).text = String.join ((tree name).leaves.map Token.text) := by
    rw [Tree.text, String.join, List.foldl_map]
  rw [Spot.text, ht, hj, ← String.toList_inj, String.toList_join, List.flatMap_map]
  exact chars_tree name

theorem IsLaid.isPlain (h : IsLaid n name) : (Segment.ofAttr n).isPlain = true := by
  obtain ⟨above, start, index, rfl⟩ := h
  obtain ⟨hc, -, hk⟩ | hc := content_cases name
  · simp [Segment.isPlain, Segment.ofAttr, Attr.spelling?, elements_laid, hc, laidAll,
      Attr.spellingOf?, Leaf.kind, hk]
  · simp [Segment.isPlain, Segment.ofAttr, Attr.spelling?, elements_laid, hc, laidAll,
      Attr.spellingOf?, value?_quoted]

theorem isLaid_dotted (above : List Spot) (start index : Nat) (names : List String) :
    List.Forall₂ IsLaid ((laidAll above start index
      (Grammar.dotted (names.map Attribute.tree))).filterMap Element.node?) names := by
  induction names generalizing start index with
  | nil => exact .nil
  | cons name names ih => exact .cons ⟨_, _, _, rfl⟩ (ih ..)

theorem isLaid_content (above : List Spot) (start index : Nat) (first : String)
    (rest : List String) :
    List.Forall₂ IsLaid (laid above start index .attrPath (AttributePath.content first rest)).nodes
      (first :: rest) := by
  rw [nodes_laid]
  exact .cons ⟨_, _, _, rfl⟩ (isLaid_dotted ..)

variable {ns : List Node} {names : List String} (h : List.Forall₂ IsLaid ns names)

include h

theorem exists_isLaid (hn : n ∈ ns) : ∃ name, IsLaid n name := by
  induction h with
  | nil => cases hn
  | cons h _ ih =>
    obtain rfl | hn := List.mem_cons.mp hn
    · exact ⟨_, h⟩
    · exact ih hn

theorem map_of_isLaid : ns.map ofNode = names.map .static ∧
    ns.map (·.text) = names.map fun name => (static name).render := by
  induction h with
  | nil => exact ⟨rfl, rfl⟩
  | cons h _ ih => simp [h.ofNode_eq, h.text_eq, ih.1, ih.2]

end Attribute

namespace Syntax.Node

theorem mem_nodes_of_exprAfter? {n c : Node} {k : Kind} (h : n.exprAfter? k = some c) :
    c ∈ n.nodes := by
  obtain ⟨e, he, hc⟩ := List.mem_filterMap.mp (List.mem_of_find?_eq_some h)
  exact List.mem_filterMap.mpr ⟨e, (List.dropWhile_sublist _).subset he, hc⟩

end Syntax.Node

section

variable {root n : Node} (h : root.Rooted) (hn : n ∈ root.descendants)
  (hk : n.kind = .letIn ∨ n.kind = .attrSet)

include h hn hk

theorem Host.bindsOnly_of_entries {e path value : Node} (he : n.entries = [e])
    (hek : e.kind = .attrPathValue) (hp : AttrPathValue.path? e = some path)
    (hv : AttrPathValue.value? e = some value) (hw : 0 < Tree.widthOf value.trees) :
    Host.BindsOnly root n (AttrPath.attrs path) value := by
  have hen : e ∈ n.nodes := (List.mem_filter.mp (he ▸ List.mem_cons_self)).1
  have hvn := mem_nodes_of_exprAfter? hv
  have hinside := mem_descendants_of_mem_nodes
    (mem_descendants_of_mem_nodes n.mem_descendants_self hen) hvn
  have hlambda : n.kind ≠ .lambda := by
    obtain hk | hk := hk <;> simp [hk]
  refine ⟨if_pos (.inr hk), h.find? hn (h.width_pos hn hinside hw), ?_,
    h.find? (descendants_trans hn hinside) hw⟩
  rw [Host.bindings, if_neg hlambda, he, List.flatMap_singleton, Binding.ofEntry,
    if_neg (by simp [hek]), hp, hv]
  rfl

end

namespace NamePath

theorem exists_valueTree (gs : List NamePath) :
    ∃ kind ts, valueTree gs = .branch kind ts ∧ kind.isExpr = true ∧ 0 < Tree.widthOf ts := by
  cases gs with
  | nil => exact ⟨_, _, rfl, rfl, by decide⟩
  | cons g gs =>
    refine ⟨_, _, rfl, rfl, ?_⟩
    rw [List.cons_append, Tree.widthOf_cons]
    exact Nat.lt_of_lt_of_le (by decide) (Nat.le_add_right _ _)

theorem entries_setEntry (above : List Spot) (start index : Nat) (first : String)
    (rest : List String) (v : Tree) :
    (ofTree above start index (Tree.setEntry (Tree.pathDefinition first rest v))).entries =
      [ofTree (aboveParts above start index (Tree.setEntry (Tree.pathDefinition first rest v)))
        (start + 2) 2 (Tree.pathDefinition first rest v)] := by
  rw [entries, ofTree, nodes_laid]
  rfl

theorem nodes_letEntry (above : List Spot) (start index : Nat) {k kind : Kind}
    (ds ts : List Tree) :
    let t := Tree.letEntry (.branch k ds) (.branch kind ts)
    (ofTree above start index t).nodes =
      [laid (aboveParts above start index t) (start + 4) 2 k ds,
        laid (aboveParts above start index t) (start + 4 + Tree.widthOf ds + 4) 6 kind ts] := by
  intro t
  rw [ofTree, nodes_laid]
  rfl

theorem exists_usageTree (head : String) (names : List String) :
    ∃ kind ts, usageTree head names = .branch kind ts ∧ (kind = .var ∨ kind = .select) := by
  cases names with
  | nil => exact ⟨_, _, rfl, .inl rfl⟩
  | cons name names => exact ⟨_, _, rfl, .inr rfl⟩

section

variable {root : Node} (h : root.Rooted)

include h

theorem exists_bindsOnly (first : String) (rest : List String) {kind : Kind} {ts : List Tree}
    (he : kind.isExpr = true) (hw : 0 < Tree.widthOf ts) {n : Node} (hn : n ∈ root.descendants)
    (hk : n.kind = .letIn ∨ n.kind = .attrSet) {above : List Spot} {start index : Nat}
    (hentries : n.entries =
      [ofTree above start index (Tree.pathDefinition first rest (.branch kind ts))]) :
    ∃ attrs above' index', List.Forall₂ Attribute.IsLaid attrs (first :: rest) ∧
      attrs.map (·.range) = namePlaces start (first :: rest) ∧
      (∀ a ∈ attrs, a ∈ root.descendants) ∧
      let value := laid above' (start + (NamePath.mk first rest).render.utf8ByteSize + 3) index'
        kind ts
      value ∈ root.descendants ∧ Host.BindsOnly root n attrs value := by
  obtain ⟨hp, hv⟩ := parts_pathDefinition above start index first rest he ts
  have hen := (List.mem_filter.mp (hentries ▸ List.mem_cons_self)).1
  have hed := mem_descendants_of_mem_nodes hn hen
  have hpd := mem_descendants_of_mem_nodes hed (mem_nodes_of_child? hp).1
  have hvd := mem_descendants_of_mem_nodes hed (mem_nodes_of_exprAfter? hv)
  have hwidth : ∀ above start index, 0 < Tree.widthOf (laid above start index kind ts).trees := by
    intro above start index
    have ht : (laid above start index kind ts).trees = ts := Tree.tree_placeAll start 0 ts
    rwa [ht]
  have hbinds := Host.bindsOnly_of_entries h hn hk hentries rfl hp hv (hwidth _ _ _)
  rw [AttrPath.attrs, childrenOf, AttributePath.filter_of_names
    (AttributePath.content_laid _ start 0 first rest)] at hbinds
  rw [width_path] at hvd hbinds
  exact ⟨_, _, _, Attribute.isLaid_content .., map_range_content ..,
    fun a ha => mem_descendants_of_mem_nodes hpd ha, hvd, hbinds⟩

/-- Nested definitions nest as their texts do, name by name and each at its place. -/
theorem exists_nests (gs : List NamePath) (first : String) (rest : List String) {n : Node}
    (hn : n ∈ root.descendants) (hk : n.kind = .letIn ∨ n.kind = .attrSet) {above : List Spot}
    {start index : Nat} (he : n.entries =
      [ofTree above start index (Tree.pathDefinition first rest (valueTree gs))]) :
    ∃ attrs, Nests root n attrs ∧
      List.Forall₂ Attribute.IsLaid attrs (first :: rest ++ gs.flatMap toList) ∧
      attrs.map (·.range) = namePlaces start (first :: rest) ++
        valuePlaces (start + (NamePath.mk first rest).render.utf8ByteSize + 3) gs ∧
      ∀ a ∈ attrs, a ∈ root.descendants := by
  -- the induction is on the groups behind the first one: each is the only entry of its own set
  induction gs generalizing first rest n above start index with
  | nil =>
    obtain ⟨attrs, above', index', hnames, hplaces, hmem, -, hb⟩ :=
      exists_bindsOnly h first rest rfl (by decide) hn hk he
    obtain ⟨a, as, -, -, rfl⟩ := List.forall₂_cons_right_iff.mp hnames
    refine ⟨a :: as, .last hb, ?_, ?_, hmem⟩
    · rwa [List.flatMap_nil, List.append_nil]
    · rwa [valuePlaces, List.append_nil]
  | cons g gs ih =>
    obtain ⟨kind, ts, hv, hkind, hw⟩ := exists_valueTree (g :: gs)
    obtain ⟨attrs, above', index', hnames, hplaces, hmem, hset, hb⟩ :=
      exists_bindsOnly h first rest hkind hw hn hk (hv ▸ he)
    cases hv
    obtain ⟨inner, hnests, hinner, hplaces', hmem'⟩ := ih g.first g.rest hset (.inr rfl)
      (entries_setEntry _ _ _ g.first g.rest (valueTree gs))
    obtain ⟨a, as, -, -, rfl⟩ := List.forall₂_cons_right_iff.mp hnames
    refine ⟨a :: as ++ inner, .more hb rfl hnests, List.rel_append hnames hinner, ?_, ?_⟩
    · rw [List.map_append, hplaces, hplaces']
      rfl
    · intro b hb
      obtain hb | hb := List.mem_append.mp hb
      · exact hmem b hb
      · exact hmem' b hb

end

section

variable (above : List Spot) (start index : Nat)

theorem within_pathDefinition (first : String) (rest : List String) {v : Tree}
    (hv : ∀ above start index, Usage.within above start index v = []) :
    Usage.within above start index (Tree.pathDefinition first rest v) = [] := by
  have hpath : ∀ above start index, Usage.within above start index
      (.branch .attrPath (AttributePath.content first rest)) = [] := fun above start index =>
    AttributePath.under_path above start index first rest
  refine (Usage.within_branch rfl ..).trans ?_
  simp only [Tree.spaced, List.cons_append, List.nil_append, Usage.withinAll, Usage.within_leaf,
    List.append_nil, hpath, hv]

theorem within_value (gs : List NamePath) : Usage.within above start index (valueTree gs) = [] := by
  induction gs generalizing above start index with
  | nil => rfl
  | cons g gs ih =>
    refine (Usage.within_branch rfl ..).trans ?_
    simp only [Tree.spaced, List.cons_append, List.nil_append, Usage.withinAll, Usage.within_leaf,
      List.append_nil]
    exact within_pathDefinition _ _ _ g.first g.rest ih

theorem isPlain_selection {u : Usage} {root : Node} {head first : String} {rest : List String}
    (hu : u ∈ Usage.under root)
    (he : u.element = laid above start index .select (AttributePath.selection head first rest [])) :
    ∀ s ∈ u.segments, s.isPlain = true := by
  have hk : u.element.kind = .select := by rw [he]; rfl
  have hp : Select.path? u.element = some (laid (u.element.toSpot :: above)
      (start + Tree.widthOf [.leaf (Token.word head)] + Token.dot.width) 2 .attrPath
        (AttributePath.content first rest)) := by
    rw [Select.path?, child?, he, nodes_laid]
    rfl
  cases Usage.stands_of_mem hu with
  | var hkv => simp [hkv] at hk
  | inherited hki => simp [hki] at hk
  | select hks hb hbk hname hp' =>
    rw [hp, Option.some.injEq] at hp'
    intro s hs
    obtain rfl | hs := List.mem_cons.mp hs
    · simp [Segment.isPlain, hbk]
    · obtain ⟨attr, ha, rfl⟩ := List.mem_map.mp hs
      rw [← hp'] at ha
      obtain ⟨ha, -⟩ := mem_nodes_of_childrenOf ha
      obtain ⟨name, hname⟩ := Attribute.exists_isLaid (Attribute.isLaid_content ..) ha
      exact hname.isPlain

theorem exists_usage (head : Identifier) (names : List String)
    (hs : Usage.isSelectBase (ofTree above start index (usageTree head.text names)) = false) :
    ∃ u, Usage.within above start index (usageTree head.text names) = [u] ∧
      u.element = ofTree above start index (usageTree head.text names) ∧
      u.path = .ofNames head.text names ∧ ∀ s ∈ u.segments, s.isPlain = true := by
  cases names with
  | nil =>
    have hu := Usage.under_var rfl hs
      (AttributePath.name?_laid above start index head.text head.isFree) rfl
    refine ⟨_, hu, rfl, rfl, ?_⟩
    intro s hs
    rw [List.mem_singleton.mp hs]
    rfl
  | cons first rest =>
    obtain ⟨u, he, hp, hu⟩ := AttributePath.under_selection above start index head.text first rest
      [] head.isFree
    have hmem : u ∈ Usage.under (laid above start index .select
        (AttributePath.selection head.text first rest [])) := by
      have hw : Usage.under (laid above start index .select
        (AttributePath.selection head.text first rest [])) = _ := hu
      rw [hw]
      exact List.mem_cons_self
    exact ⟨u, hu, he, hp, isPlain_selection above start index hmem he⟩

end

end NamePath

/-- From a plain segment with a single candidate that has a single declaration, the definition that
is found is the name of the declaration. -/
theorem Document.exists_target {d : Document} (h : d.root.Rooted) {u : Usage}
    (hu : u ∈ Usage.under d.root) {i : Nat} {s : Segment} (hs : u.segments[i]? = some s)
    (hplain : s.isPlain = true) {symbol : Symbol}
    (hsymbols : (Resolution.of d.root u).symbols i = [symbol]) {c : Declaration}
    (hc : symbol.declarations d.root = [c]) {a : Node} (ha : a ∈ d.root.descendants)
    (hca : c.name = a.pointer) (file : FileId) :
    ∃ target, d.definitions file s.node.range.start = [target] ∧ target.file = file ∧
      target.range = a.range ∧ target.name = a.text := by
  obtain ⟨name, hname⟩ := Usage.static_of_isPlain hu (List.mem_of_getElem? hs) hplain
  have hon : d.OnSegment u i s s.node.range.start := ⟨hu, hs, hplain, Nat.le_refl _,
    Usage.range_lt_of_static h hu (List.mem_of_getElem? hs) hname⟩
  obtain ⟨m, -, -, hlt, hcm, -⟩ := Symbol.exists_name h (hc ▸ List.mem_cons_self)
  have hwide : a.pointer.range.start < a.pointer.range.stop := by
    rw [← hca, hcm]
    exact hlt
  have hfind : c.name.find? d.root = some a := by
    rw [hca]
    exact (Pointer.find?_eq_some hwide h.wellPlaced h.tight h.above).mpr ⟨ha, rfl⟩
  have htarget : ∃ target, Target.of? file d c = some target ∧ target.file = file ∧
      target.range = a.range ∧ target.name = a.text := by
    rw [Target.of?, hfind]
    exact ⟨_, rfl, rfl, rfl, rfl⟩
  obtain ⟨target, ht, hparts⟩ := htarget
  refine ⟨target, ?_, hparts⟩
  rw [hon.definitions h, hsymbols, List.flatMap_singleton, hc, List.filterMap_cons_some ht,
    List.filterMap_nil]

namespace Nest

open NamePath

variable (t : Nest)

def places : List Range :=
  namePlaces 4 (t.head.text :: t.rest) ++
    valuePlaces (4 + (NamePath.mk t.head.text t.rest).render.utf8ByteSize + 3) t.inner

def letNode : Node := ofTree [(root .root [t.tree]).toSpot] 0 0 t.tree

theorem letNode_mem : t.letNode ∈ (root .root [t.tree]).descendants := by
  have hn : (root .root [t.tree]).nodes = [t.letNode] := nodes_laid [] 0 0 .root [t.tree]
  exact mem_descendants_of_mem_nodes (mem_descendants_self _) (hn ▸ List.mem_cons_self)

theorem entries_letNode : t.letNode.entries =
    [ofTree (aboveParts [(root .root [t.tree]).toSpot] 0 0 t.tree) 4 2
      (Tree.pathDefinition t.head.text t.rest (valueTree t.inner))] := by
  obtain ⟨kind, ts, hu, hk⟩ := exists_usageTree t.head.text t.selected
  rw [entries, letNode, tree, hu, Tree.pathDefinition, nodes_letEntry]
  obtain rfl | rfl := hk <;> rfl

theorem exists_usage_root : ∃ u, Usage.under (root .root [t.tree]) = [u] ∧
    u.path = .ofNames t.head.text t.selected ∧ (∀ s ∈ u.segments, s.isPlain = true) ∧
    u.element.kind ≠ .inheritedName ∧ u.element.outer = [t.letNode, root .root [t.tree]] := by
  have hentry : ∀ above start index, Usage.within above start index
      (Tree.pathDefinition t.head.text t.rest (valueTree t.inner)) = [] :=
    fun above start index => within_pathDefinition above start index _ _
      fun above start index => within_value above start index t.inner
  have hunder : Usage.under (root .root [t.tree]) =
      Usage.within (aboveParts [(root .root [t.tree]).toSpot] 0 0 t.tree)
        (4 + (Tree.pathDefinition t.head.text t.rest (valueTree t.inner)).width + 4) 6
        (usageTree t.head.text t.selected) := by
    refine (Usage.under_root t.tree).trans ((Usage.within_branch rfl ..).trans ?_)
    simp only [Tree.spaced, List.cons_append, List.nil_append, Usage.withinAll, Usage.within_leaf,
      List.append_nil, hentry]
    rfl
  obtain ⟨u, hu, he, hp, hplain⟩ := exists_usage
    (aboveParts [(root .root [t.tree]).toSpot] 0 0 t.tree)
    (4 + (Tree.pathDefinition t.head.text t.rest (valueTree t.inner)).width + 4) 6 t.head t.selected
    rfl
  obtain ⟨kind, ts, htree, hk⟩ := exists_usageTree t.head.text t.selected
  refine ⟨u, hunder.trans hu, hp, hplain, ?_, ?_⟩
  · rw [he, htree, ofTree, kind_laid, Tree.kind_branch]
    obtain rfl | rfl := hk <;> decide
  · rw [he]
    rfl

section

variable {t} {u : Usage} (h : (root .root [t.tree]).Rooted)
  (hp : u.path = .ofNames t.head.text t.selected) (hk : u.element.kind ≠ .inheritedName)
  (ho : u.element.outer = [t.letNode, root .root [t.tree]])

include hk ho in
theorem hosts_usage : Scope.hosts u.element = [⟨t.letNode⟩] := by
  rw [Scope.hosts, Scope.around, ho]
  simp only [hk, if_false]
  rfl

include h hp hk ho

/-- Each name of the usage has a single candidate, and this has a single declaration: the node in
the definitions that stands at the place of the name and is written like it. -/
theorem exists_candidates :
    ∃ (attrs : List Node) (found : List (Pointer × AttributePath)) (ds : List Declaration),
      (Resolution.of (root .root [t.tree]) u).segments =
          found.map (fun f => [.declared f.1 f.2]) ∧
        found.length = t.names.length ∧
        found.map (fun f => (Symbol.declared f.1 f.2).declarations (root .root [t.tree])) =
          ds.map ([·]) ∧
        ds.map (·.name) = attrs.map (·.pointer) ∧ attrs.map (·.range) = t.places ∧
        attrs.map (·.text) = t.names.map (fun name => (Attribute.static name).render) ∧
        ∀ a ∈ attrs, a ∈ (root .root [t.tree]).descendants := by
  obtain ⟨attrs, hnests, hlaid, hplaces, hmem⟩ := exists_nests h t.inner t.head.text t.rest
    t.letNode_mem (.inl rfl) t.entries_letNode
  obtain ⟨hnames, htexts⟩ := Attribute.map_of_isLaid hlaid
  obtain ⟨a, bs, as, value, rfl, hb⟩ := hnests.exists_bindsOnly
  obtain ⟨ha, has⟩ := List.cons.inj hnames
  have hdeclares : (Host.mk t.letNode).declares (.single (.static t.head.text)) = true :=
    ha ▸ hb.declares_first
  have hfirst : Scope.resolveName u.element (.static t.head.text) =
      [.declared t.letNode.pointer (.single (.static t.head.text))] := by
    rw [Scope.resolveName, hosts_usage hk ho, List.find?_cons, hdeclares]
  obtain ⟨ds, hds, hdesc⟩ := hnests.descends
  obtain ⟨found, hfollow, hlen, hfound⟩ := hdesc.exists_follow
  rw [has] at hfollow hlen
  refine ⟨_, found, ds, ?_, ?_, hfound, hds, hplaces, htexts, hmem⟩
  · rw [← hfollow, ha, ← hfirst, Resolution.of, hp]
    rfl
  · rw [hlen, List.length_map]
    rfl

theorem isComplete_usage : (Resolution.of (root .root [t.tree]) u).isComplete = true := by
  obtain ⟨-, found, -, hsegments, hlen, -⟩ := exists_candidates h hp hk ho
  have hne : found ≠ [] := List.ne_nil_of_length_eq_add_one hlen
  have hpath : u.path.length = t.names.length := by
    rw [hp]
    simp [AttributePath.length, AttributePath.ofNames, names]
  have hof : (Resolution.of (root .root [t.tree]) u).path = u.path := rfl
  simp [Resolution.isComplete, hof, hpath, hsegments, hlen, List.getLast?_eq_some_getLast hne]

theorem exists_candidate {i : Nat} (hi : i < t.names.length) :
    ∃ host p c a, (Resolution.of (root .root [t.tree]) u).symbols i = [.declared host p] ∧
      (Symbol.declared host p).declarations (root .root [t.tree]) = [c] ∧ c.name = a.pointer ∧
      a ∈ (root .root [t.tree]).descendants ∧ t.places[i]? = some a.range ∧
      a.text = (Attribute.static t.names[i]).render := by
  obtain ⟨attrs, found, ds, hsegments, hlen, hfound, hds, hplaces, htexts, hmem⟩ :=
    exists_candidates h hp hk ho
  have hattrs : attrs.length = t.names.length := by simpa using congrArg List.length htexts
  have hdlen : ds.length = attrs.length := by simpa using congrArg List.length hds
  have hf : i < found.length := hlen ▸ hi
  have ha : i < attrs.length := hattrs ▸ hi
  have hd : i < ds.length := hdlen ▸ ha
  refine ⟨found[i].1, found[i].2, ds[i], attrs[i], ?_, ?_, ?_, hmem _ (List.getElem_mem _), ?_, ?_⟩
  · simp [Resolution.symbols, hsegments, hf]
  · simpa [hf, hd] using congrArg (·[i]?) hfound
  · simpa [hd, ha] using congrArg (·[i]?) hds
  · simp [← hplaces, ha]
  · simpa [ha, hi] using congrArg (·[i]?) htexts

end

/-- Paths and sets in sets mean the same, whatever way names are split between them. The text is
read without an error, the names behind the definitions are one usage, and each of them has a single
candidate, which is declared. The definition that an editor finds from the start of a name is a
single one as well: the name of the same number in the definitions. -/
theorem definitions_eq_places (t : Nest) (ht : t.inner.length + 1 ≤ 200) (path : Path)
    (file : FileId) :
    let d := Document.of path t.text
    d.parse.errors = [] ∧ ∃ u, Usage.under d.root = [u] ∧
      u.path = .ofNames t.head.text t.selected ∧ (Resolution.of d.root u).isComplete = true ∧
      ∀ (i : Nat) (hi : i < t.names.length), ∃ s host p target, u.segments[i]? = some s ∧
        (Resolution.of d.root u).symbols i = [.declared host p] ∧
        d.definitions file s.node.range.start = [target] ∧ target.file = file ∧
        t.places[i]? = some target.range ∧
        target.name = (Attribute.static t.names[i]).render := by
  intro d
  have hparse : d.parse = ⟨[t.tree], []⟩ := t.parse_text ht
  have hroot : d.root = root .root [t.tree] := by rw [Document.root, hparse]; rfl
  have hd : d.root.Rooted := Parse.rooted t.text
  have h : (root .root [t.tree]).Rooted := hroot ▸ hd
  obtain ⟨u, hu, hp, hplain, hk, ho⟩ := t.exists_usage_root
  rw [← hroot] at hu
  refine ⟨by rw [hparse], u, hu, hp, hroot ▸ isComplete_usage h hp hk ho, fun i hi => ?_⟩
  have hlen : u.segments.length = t.names.length := by
    have hl := congrArg AttributePath.length hp
    simpa [AttributePath.length, AttributePath.ofNames, Usage.path, Usage.segments, names] using hl
  obtain ⟨s, hs⟩ : ∃ s, u.segments[i]? = some s := ⟨_, List.getElem?_eq_getElem (hlen ▸ hi)⟩
  obtain ⟨host, p, c, a, hsymbols, hc, hca, ha, hplace, htext⟩ := exists_candidate h hp hk ho hi
  rw [← hroot] at hsymbols hc ha
  obtain ⟨target, hdef, hfile, hrange, hname⟩ := Document.exists_target hd
    (hu ▸ List.mem_cons_self) hs (hplain s (List.mem_of_getElem? hs)) hsymbols hc ha hca file
  exact ⟨s, host, p, target, hs, hsymbols, hdef, hfile, hrange ▸ hplace, hname.trans htext⟩

/-- A name that is a keyword elsewhere, one that stands twice, and one that has to be quoted. -/
theorem definitions_eq_places_quoted :
    let t : Nest := ⟨⟨"a", by decide, by decide⟩, ["or"], [⟨"a", []⟩, ⟨"b c", []⟩]⟩
    let d := Document.of ⟨"a.nix"⟩ t.text
    t.inner.length + 1 ≤ 200 ∧
      t.text = "let a.or = \x7b a = \x7b \"b c\" = 1; \x7d; \x7d; in a.or.a.\"b c\"" ∧
      t.places = [⟨4, 5⟩, ⟨6, 8⟩, ⟨13, 14⟩, ⟨19, 24⟩] ∧
      ∃ u, Usage.under d.root = [u] ∧ (Resolution.of d.root u).isComplete = true ∧
        ∃ s target, u.segments[3]? = some s ∧
          d.definitions ⟨0⟩ s.node.range.start = [target] ∧ target.range = ⟨19, 24⟩ := by
  intro t d
  have ht : t.inner.length + 1 ≤ 200 := by decide
  have hplaces : t.places = [⟨4, 5⟩, ⟨6, 8⟩, ⟨13, 14⟩, ⟨19, 24⟩] := by decide +kernel
  obtain ⟨-, u, hu, -, hcomplete, hdef⟩ := definitions_eq_places t ht ⟨"a.nix"⟩ ⟨0⟩
  obtain ⟨s, -, -, target, hs, -, hd, -, hplace, -⟩ := hdef 3 (by decide)
  rw [hplaces] at hplace
  exact ⟨ht, by decide +kernel, hplaces, u, hu, hcomplete, s, target, hs, hd,
    (Option.some.inj hplace).symm⟩

end Nest

end NixScope
