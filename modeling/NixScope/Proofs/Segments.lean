import NixScope.Names.Usage
import NixScope.Proofs.Order

namespace NixScope

open Syntax

namespace Syntax

def Kind.isUsage (k : Kind) : Bool := k matches var | select | inheritedName

namespace Element

theorem exists_leaf_of_tree {e : Element} {t : Token} (h : e.tree = .leaf t) :
    ∃ l, e = .leaf l ∧ l.token = t := by
  cases e with
  | leaf l => exact ⟨l, rfl, Rose.leaf.inj h⟩
  | node n =>
    rw [tree, Spot.tree_eq] at h
    cases h

theorem exists_node_of_tree {e : Element} {k : Kind} {us : List Tree} (h : e.tree = .branch k us) :
    ∃ n, e = .node n ∧ n.kind = k ∧ n.trees = us := by
  cases e with
  | leaf l => cases h
  | node n =>
    rw [tree, Spot.tree_eq, Rose.branch.injEq] at h
    exact ⟨n, rfl, h⟩

end Element

namespace Node

variable {n : Node}

theorem induct {motive : Node → Prop} (step : ∀ n, (∀ c ∈ n.nodes, motive c) → motive n)
    (n : Node) : motive n := by
  suffices h : ∀ t : PlacedTree, ∀ n : Node, n.placed = t → motive n from h n.placed n rfl
  intro t
  induction t using Rose.induct with
  | leaf t => exact nofun
  | branch m ts ih =>
    intro n hn
    apply step
    intro c hc
    obtain ⟨t, ht, he⟩ := List.mem_map.mp (node_mem_elements.mpr hc)
    have hts : n.children = ts := (Rose.branch.inj hn).2
    cases t with
    | leaf t => cases he
    | branch m' us =>
      cases he
      exact ih _ (hts ▸ ht) _ rfl

theorem exists_leaf_of_trees {t : Token} {us : List Tree} (h : n.trees = .leaf t :: us) :
    ∃ l es, n.elements = .leaf l :: es ∧ l.token = t ∧ es.map Element.tree = us := by
  rw [← tree_elements] at h
  obtain ⟨e, es, he, ht, hs⟩ := List.map_eq_cons_iff.mp h
  obtain ⟨l, rfl, hl⟩ := Element.exists_leaf_of_tree ht
  exact ⟨l, es, he, hl, hs⟩

theorem exists_node_of_trees {k : Kind} {us vs : List Tree} (h : n.trees = .branch k us :: vs) :
    ∃ c es, n.elements = .node c :: es ∧ c.kind = k ∧ c.trees = us ∧
      es.map Element.tree = vs := by
  rw [← tree_elements] at h
  obtain ⟨e, es, he, ht, hs⟩ := List.map_eq_cons_iff.mp h
  obtain ⟨c, rfl, hk, hc⟩ := Element.exists_node_of_tree ht
  exact ⟨c, es, he, hk, hc, hs⟩

theorem nodes_of_elements {es : List Element} (h : n.elements = es) :
    n.nodes = es.filterMap Element.node? := by
  rw [nodes, h]

inductive NameForm (n : Node) : Prop
  | missing (he : n.elements = [])
  | word {l : Leaf} (he : n.elements = [.leaf l]) (hl : l.kind = .ident ∨ l.kind = .orKw)
  | quoted {c : Node} {l : Leaf} {es : List Element} (he : n.elements = [.node c])
      (hc : c.kind = .string) (hs : c.elements = .leaf l :: es) (hl : l.kind = .quote)
  | computed {c : Node} {l : Leaf} {es : List Element} (he : n.elements = [.node c])
      (hc : c.kind = .dynamic) (hs : c.elements = .leaf l :: es) (hl : l.kind = .dollarBrace)

def IsName (n : Node) : Prop := n.kind = .var ∨ n.kind = .paramName ∨ n.kind = .attr

theorem IsName.ne_string (hk : n.IsName) : n.kind ≠ .string := by
  obtain hk | hk | hk := hk <;> simp [hk]

theorem IsName.ne_dynamic (hk : n.IsName) : n.kind ≠ .dynamic := by
  obtain hk | hk | hk := hk <;> simp [hk]

namespace Rooted

variable {root : Node} (h : root.Rooted) {m x : Node}

include h

theorem spelled_of_mem (hn : n ∈ root.descendants) : Tree.Spelled n.kind n.trees :=
  everywhere_of_mem_descendants h.spelled hn

theorem word_of_mem (hn : n ∈ root.descendants) (hk : n.kind = .var ∨ n.kind = .paramName) :
    ∃ l, n.elements = [.leaf l] ∧ l.kind = .ident := by
  have hs := h.spelled_of_mem hn
  have ht : ∃ t : Token, t.kind = .ident ∧ n.trees = [.leaf t] := by
    generalize n.trees = ts at hs ⊢
    obtain hk | hk := hk <;> rw [hk] at hs
    · cases hs with
      | @var t ht => exact ⟨t, ht, rfl⟩
      | other hk => simp at hk
    · cases hs with
      | @paramName t ht => exact ⟨t, ht, rfl⟩
      | other hk => simp at hk
  obtain ⟨t, ht, htrees⟩ := ht
  obtain ⟨l, es, he, hl, hes⟩ := exists_leaf_of_trees htrees
  rw [List.map_eq_nil_iff.mp hes] at he
  exact ⟨l, he, by rw [Leaf.kind, hl, ht]⟩

theorem nameForm_attr (hn : n ∈ root.descendants) (hk : n.kind = .attr) : n.NameForm := by
  have hs := h.spelled_of_mem hn
  rw [hk] at hs
  generalize ht : n.trees = ts at hs
  cases hs with
  | @attrName t hname =>
    obtain ⟨l, es, he, hl, hes⟩ := exists_leaf_of_trees ht
    rw [List.map_eq_nil_iff.mp hes] at he
    exact .word he (by rwa [Leaf.kind, hl])
  | @attrString t us hquote =>
    obtain ⟨c, es, he, hc, hcs, hes⟩ := exists_node_of_trees ht
    obtain ⟨l, es', hce, hl, -⟩ := exists_leaf_of_trees hcs
    rw [List.map_eq_nil_iff.mp hes] at he
    exact .quoted he hc hce (by rwa [Leaf.kind, hl])
  | @attrDynamic t us hbrace =>
    obtain ⟨c, es, he, hc, hcs, hes⟩ := exists_node_of_trees ht
    obtain ⟨l, es', hce, hl, -⟩ := exists_leaf_of_trees hcs
    rw [List.map_eq_nil_iff.mp hes] at he
    exact .computed he hc hce (by rwa [Leaf.kind, hl])
  | noAttr =>
    rw [← tree_elements, List.map_eq_nil_iff] at ht
    exact .missing ht
  | other hk => simp at hk

theorem nameForm (hn : n ∈ root.descendants) (hk : n.IsName) : n.NameForm := by
  obtain hk | hk | hk := hk
  · obtain ⟨l, he, hl⟩ := h.word_of_mem hn (.inl hk)
    exact .word he (.inl hl)
  · obtain ⟨l, he, hl⟩ := h.word_of_mem hn (.inr hk)
    exact .word he (.inl hl)
  · exact h.nameForm_attr hn hk

omit h in
theorem leaf_mem_inside {l : Leaf} {es : List Element} (he : n.elements = .leaf l :: es) :
    .leaf l ∈ n.inside :=
  mem_inside.mpr (.inl (he ▸ List.mem_cons_self))

theorem lt_start_of_leaf (hn : n ∈ root.descendants) {l : Leaf} {es : List Element}
    (he : n.elements = .leaf l :: es) (hx : .node x ∈ n.inside) : n.range.start < x.range.start := by
  have hw := h.wellPlaced_of_mem hn
  obtain ⟨c, hc, hxc⟩ := node_mem_inside.mp hx
  have hlt : l.range.start < l.range.stop :=
    h.leaf_lt (List.mem_cons_of_mem _ (inside_subset hn _ (leaf_mem_inside he)))
  have hls : l.range.start = n.range.start := start_of_elements hw he
  have hcs : l.range.stop ≤ c.range.start := by
    have hp := pairwise_elements hw
    rw [he, List.pairwise_cons] at hp
    have hm := node_mem_elements.mpr hc
    rw [he, List.mem_cons] at hm
    obtain hm | hm := hm
    · cases hm
    · exact hp.1 _ hm
  have hcd := mem_descendants_of_mem_nodes hn hc
  have hcx := Range.contains_iff.mp ((h.wellPlaced_of_mem hcd).contains_of_mem hxc)
  have hcr : c.placed.range = c.range := rfl
  rw [hcr] at hcx
  omega

/-- Nothing inside of a name begins where the name begins, but the string or the braces that spell
it. -/
theorem lt_start_of_name (hn : n ∈ root.descendants) (hk : n.IsName) (hx : .node x ∈ n.inside)
    (hs : x.kind ≠ .string) (hd : x.kind ≠ .dynamic) : n.range.start < x.range.start := by
  have hw := h.wellPlaced_of_mem hn
  obtain ⟨c, hc, hxc⟩ := node_mem_inside.mp hx
  have hchild : ∀ {k : Kind} {l : Leaf} {es : List Element}, n.elements = [.node c] → c.kind = k →
      x.kind ≠ k → c.elements = .leaf l :: es → n.range.start < x.range.start := by
    intro k l es he hck hxk hce
    rw [← start_of_elements hw he]
    rw [← node_mem_walk, walk_eq, List.mem_cons] at hxc
    obtain hxc | hxc := hxc
    · cases hxc
      exact absurd hck hxk
    · exact h.lt_start_of_leaf (mem_descendants_of_mem_nodes hn hc) hce hxc
  have honly : ∀ {d : Node}, n.elements = [.node d] → d = c := by
    intro d he
    rw [nodes_of_elements he] at hc
    exact (List.mem_singleton.mp hc).symm
  cases h.nameForm hn hk with
  | missing he =>
    rw [nodes_of_elements he] at hc
    cases hc
  | word he =>
    rw [nodes_of_elements he] at hc
    cases hc
  | quoted he hck hce =>
    obtain rfl := honly he
    exact hchild he hck hs hce
  | computed he hck hce =>
    obtain rfl := honly he
    exact hchild he hck hd hce

/-- Of two names that overlap, the one that begins first has the other one in it. -/
theorem mem_descendants_of_names (hn : n ∈ root.descendants) (hm : m ∈ root.descendants)
    (hkn : n.IsName) (hkm : m.IsName) (hw : m.range.start < m.range.stop)
    (hle : n.range.start ≤ m.range.start) (hlt : m.range.start < n.range.stop) :
    m ∈ n.descendants := by
  obtain he | hp | hp := h.nested_or_apart (node_mem_walk.mpr hn) (node_mem_walk.mpr hm)
  · exact mem_descendants_iff.mpr (.inl (Element.node.inj he).symm)
  · cases hp with
    | around hi => exact mem_descendants_of_mem_inside hi
    | behind hb =>
      have hb : n.range.stop ≤ m.range.start := hb
      omega
  · cases hp with
    | around hi =>
      have hmn := h.lt_start_of_name hm hkm hi hkn.ne_string hkn.ne_dynamic
      omega
    | behind hb =>
      have hb : m.range.stop ≤ n.range.start := hb
      omega

/-- No two names begin at one offset. -/
theorem name_eq_of_start (hn : n ∈ root.descendants) (hm : m ∈ root.descendants) (hkn : n.IsName)
    (hkm : m.IsName) (hwn : n.range.start < n.range.stop) (hwm : m.range.start < m.range.stop)
    (he : n.range.start = m.range.start) : n = m := by
  have hmn := h.mem_descendants_of_names hn hm hkn hkm hwm (Nat.le_of_eq he) (he ▸ hwn)
  obtain hmn | hi := mem_descendants_iff.mp hmn
  · exact hmn.symm
  · have hlt := h.lt_start_of_name hn hkn hi hkm.ne_string hkm.ne_dynamic
    omega

theorem nodes_of_value? (hn : n ∈ root.descendants) (hk : n.kind = .string) {v : String}
    (hv : StringLiteral.value? n = some v) : n.nodes = [] := by
  have hs := h.spelled_of_mem hn
  rw [hk] at hs
  rw [List.eq_nil_iff_forall_not_mem]
  intro c hc
  have hck : c.kind = .interpolation := by
    have hm := tree_mem_trees hc
    generalize n.trees = ts at hs hm
    cases hs with
    | string hs => exact hs _ _ hm
    | other hk => simp at hk
  have hp : .node c ∈ StringLiteral.parts n :=
    List.mem_filter.mpr ⟨node_mem_elements.mpr hc, by simp [hck]⟩
  obtain ⟨as, bs, he⟩ := List.append_of_mem hp
  rw [StringLiteral.value?, he] at hv
  simp [StringLiteral.decodePart] at hv

theorem nodes_of_error (hn : n ∈ root.descendants) (hk : n.kind = .error) : n.nodes = [] := by
  have hs := h.spelled_of_mem hn
  rw [hk] at hs
  rw [List.eq_nil_iff_forall_not_mem]
  intro c hc
  have hm := tree_mem_trees hc
  generalize n.trees = ts at hs hm
  cases hs with
  | error hs =>
    obtain ⟨l, hl⟩ := hs _ hm
    cases hl
  | other hk => simp at hk

theorem nodes_of_inheritedName (hn : n ∈ root.descendants) (hk : n.kind = .inheritedName) :
    ∃ attr, n.nodes = [attr] := by
  have hs := h.spelled_of_mem hn
  rw [hk] at hs
  generalize ht : n.trees = ts at hs
  cases hs with
  | inheritedName us =>
    obtain ⟨c, es, he, -, -, hes⟩ := exists_node_of_trees ht
    rw [List.map_eq_nil_iff.mp hes] at he
    exact ⟨c, nodes_of_elements he⟩
  | other hk => simp at hk

omit h in
theorem eq_of_lone {es : List Element} {a b : Node} (hs : Tree.Lone (es.map Element.tree))
    (ha : .node a ∈ es) (hb : .node b ∈ es) (hka : a.kind ≠ .error) (hkb : b.kind ≠ .error) :
    a = b := by
  rw [Tree.Lone, Tree.sound, List.filter_map, List.length_map] at hs
  have hsound : ∀ {c : Node}, .node c ∈ es → c.kind ≠ .error →
      .node c ∈ es.filter (Tree.isSound ∘ Element.tree) := by
    intro c hc hk
    rw [List.mem_filter, Function.comp_apply, Element.tree, Spot.tree_eq]
    exact ⟨hc, by simpa [Tree.isSound] using hk⟩
  have ha := hsound ha hka
  have hb := hsound hb hkb
  generalize es.filter (Tree.isSound ∘ Element.tree) = fs at hs ha hb
  obtain ⟨e, he⟩ : ∃ e, fs = [e] :=
    List.length_eq_one_iff.mp (Nat.le_antisymm hs (List.length_pos_of_mem ha))
  rw [he, List.mem_singleton] at ha hb
  exact Element.node.inj (ha.trans hb.symm)

end Rooted

theorem stripParens?_paren (hk : n.kind = .paren) : n.stripParens? = n.expr?.bind stripParens? := by
  rw [stripParens?, if_pos hk, expr?, nodes, elements]
  generalize n.toSpot :: n.above = above
  induction n.children with
  | nil => rfl
  | cons t ts ih =>
    cases t with
    | leaf t =>
      rw [PlacedTree.unwrapAll, List.map_cons, PlacedTree.element,
        List.filterMap_cons_none (Element.node?_leaf _)]
      exact ih
    | branch m us =>
      rw [PlacedTree.unwrapAll, List.map_cons, PlacedTree.element,
        List.filterMap_cons_some (Element.node?_node _), List.find?_cons]
      by_cases he : m.kind.isExpr = true
      · have hc : (⟨⟨m, us⟩, above⟩ : Node).kind.isExpr = true := he
        rw [if_pos he, hc]
        rfl
      · have hc : (⟨⟨m, us⟩, above⟩ : Node).kind.isExpr = false := Bool.eq_false_iff.mpr he
        rw [if_neg he, hc]
        exact ih

def Calm (n : Node) : Prop := ∀ x ∈ n.descendants, x.kind.isUsage = false

theorem calm_of_nodes_eq_nil (hk : n.kind.isUsage = false) (hn : n.nodes = []) : n.Calm := by
  intro x hx
  rwa [eq_of_nodes_eq_nil hn hx]

theorem calm_of_children (hk : n.kind.isUsage = false) (hc : ∀ c ∈ n.nodes, c.Calm) : n.Calm := by
  intro x hx
  obtain rfl | hx := mem_descendants_iff.mp hx
  · exact hk
  · obtain ⟨c, hm, hx⟩ := node_mem_inside.mp hx
    exact hc c hm x hx

namespace Rooted

variable {root : Node} (h : root.Rooted)

include h

theorem calm_of_lone (hn : n ∈ root.descendants) (hk : n.kind.isUsage = false)
    (hs : Tree.Lone n.trees) {e : Node} (he : n.expr? = some e) (hc : e.Calm) : n.Calm := by
  apply calm_of_children hk
  intro c hm
  by_cases herr : c.kind = .error
  · have hcd := mem_descendants_of_mem_nodes hn hm
    exact calm_of_nodes_eq_nil (by simp [herr, Kind.isUsage]) (h.nodes_of_error hcd herr)
  · have hem := List.mem_of_find?_eq_some he
    have hek : e.kind ≠ .error := by
      intro hek
      have hexpr : e.kind.isExpr = true := by simpa using List.find?_some he
      simp [hek, Kind.isExpr] at hexpr
    rw [← tree_elements] at hs
    rw [eq_of_lone hs (node_mem_elements.mpr hm) (node_mem_elements.mpr hem) herr hek]
    exact hc

theorem calm_of_stripParens? {m : Node} {v : String} (hk : m.kind = .string)
    (hv : StringLiteral.value? m = some v) :
    n ∈ root.descendants → n.stripParens? = some m → n.Calm := by
  induction n using Node.induct with
  | step n ih =>
    intro hn hm
    by_cases hp : n.kind = .paren
    · rw [stripParens?_paren hp] at hm
      obtain ⟨e, he, hm⟩ := Option.bind_eq_some_iff.mp hm
      have hmem := List.mem_of_find?_eq_some he
      have hs : Tree.Lone n.trees := by
        have hs := h.spelled_of_mem hn
        rw [hp] at hs
        generalize n.trees = ts at hs
        cases hs with
        | paren hs => exact hs
        | other hk => simp at hk
      exact h.calm_of_lone hn (by simp [hp, Kind.isUsage]) hs he
        (ih e hmem (mem_descendants_of_mem_nodes hn hmem) hm)
    · rw [stripParens?, if_neg hp, Option.some.injEq] at hm
      subst hm
      exact calm_of_nodes_eq_nil (by simp [hk, Kind.isUsage]) (h.nodes_of_value? hn hk hv)

theorem calm_of_static (hn : n ∈ root.descendants) (hk : n.kind = .attr) {name : String}
    (hs : Attr.staticName? n = some name) : n.Calm := by
  have hku : n.kind.isUsage = false := by simp [hk, Kind.isUsage]
  cases h.nameForm_attr hn hk with
  | missing he => exact calm_of_nodes_eq_nil hku (by simp [nodes_of_elements he])
  | word he => exact calm_of_nodes_eq_nil hku (by simp [nodes_of_elements he])
  | @quoted c l es he hc =>
    have hcn : c ∈ n.nodes := by simp [nodes_of_elements he]
    have hv : StringLiteral.value? c = some name := by
      simpa [Attr.staticName?, Attr.spelling?, he, Attr.spellingOf?, hc] using hs
    have hnil := h.nodes_of_value? (mem_descendants_of_mem_nodes hn hcn) hc hv
    apply calm_of_children hku
    intro d hd
    rw [nodes_of_elements he] at hd
    rw [List.mem_singleton.mp hd]
    exact calm_of_nodes_eq_nil (by simp [hc, Kind.isUsage]) hnil
  | @computed c l es he hc =>
    have hcn : c ∈ n.nodes := by simp [nodes_of_elements he]
    have hcd := mem_descendants_of_mem_nodes hn hcn
    have hv : ((c.expr?.bind stripParens?).filter (·.kind == .string)).bind
        StringLiteral.value? = some name := by
      simpa [Attr.staticName?, Attr.spelling?, he, Attr.spellingOf?, hc] using hs
    obtain ⟨m, hm, hv⟩ := Option.bind_eq_some_iff.mp hv
    obtain ⟨hm, hmk⟩ := Option.filter_eq_some_iff.mp hm
    obtain ⟨e, he', hm⟩ := Option.bind_eq_some_iff.mp hm
    have hed := mem_descendants_of_mem_nodes hcd (List.mem_of_find?_eq_some he')
    have hlone : Tree.Lone c.trees := by
      have hs := h.spelled_of_mem hcd
      rw [hc] at hs
      generalize c.trees = ts at hs
      cases hs with
      | dynamic hs => exact hs
      | other hk => simp at hk
    apply calm_of_children hku
    intro d hd
    rw [nodes_of_elements he] at hd
    rw [List.mem_singleton.mp hd]
    exact h.calm_of_lone hcd (by simp [hc, Kind.isUsage]) hlone he'
      (h.calm_of_stripParens? (by simpa using hmk) hv hed hm)

end Rooted

end Node

end Syntax

end NixScope
