import NixScope.Proofs.Parts
import NixScope.Proofs.Placement

namespace NixScope.Syntax

namespace PlacedTree

theorem mem_elements_of_mem_walk {t : PlacedTree} {above : List Spot} {e : Element}
    (h : e ∈ walk above t) : e = element above t ∨ ∃ n ∈ nodes above t, e ∈ n.elements := by
  induction t using Rose.induct generalizing above with
  | leaf t => exact .inl (List.mem_singleton.mp h)
  | branch m ts ih =>
    rw [walk, List.mem_cons, walkAll_eq, List.mem_flatMap] at h
    obtain rfl | ⟨u, hu, he⟩ := h
    · exact .inl rfl
    · right
      rw [nodes_branch]
      obtain rfl | ⟨n, hn, hm⟩ := ih u hu he
      · exact ⟨_, List.mem_cons_self, List.mem_map_of_mem hu⟩
      · exact ⟨n, List.mem_cons_of_mem _ (List.mem_flatMap.mpr ⟨u, hu, hn⟩), hm⟩

theorem mem_nodes_of_mem_nodes {t : PlacedTree} {above : List Spot} {n c : Node}
    (hn : n ∈ nodes above t) (hc : c ∈ n.nodes) : c ∈ nodes above t := by
  induction t using Rose.induct generalizing above with
  | leaf t => simp at hn
  | branch m ts ih =>
    rw [nodes_branch] at hn ⊢
    apply List.mem_cons_of_mem
    rw [List.mem_flatMap]
    obtain rfl | hn := List.mem_cons.mp hn
    · obtain ⟨e, he, hc⟩ := List.mem_filterMap.mp hc
      obtain ⟨u, hu, rfl⟩ := List.mem_map.mp he
      refine ⟨u, hu, ?_⟩
      cases u with
      | leaf t => cases hc
      | branch m' us =>
        cases hc
        rw [nodes_branch]
        exact List.mem_cons_self
    · obtain ⟨u, hu, hn⟩ := List.mem_flatMap.mp hn
      exact ⟨u, hu, ih u hu hn⟩

end PlacedTree

namespace Node

theorem mem_elements_of_mem_walk {n : Node} {e : Element} (h : e ∈ n.walk) :
    e = .node n ∨ ∃ m ∈ n.descendants, e ∈ m.elements :=
  PlacedTree.mem_elements_of_mem_walk (t := n.placed) h

theorem mem_descendants_of_mem_nodes {n m c : Node} (hm : m ∈ n.descendants) (hc : c ∈ m.nodes) :
    c ∈ n.descendants := by
  rw [PlacedTree.descendants_eq] at hm ⊢
  exact PlacedTree.mem_nodes_of_mem_nodes hm hc

theorem node_mem_elements {n c : Node} : .node c ∈ n.elements ↔ c ∈ n.nodes := by
  rw [nodes, List.mem_filterMap]
  constructor
  · exact fun h => ⟨_, h, rfl⟩
  · rintro ⟨e, he, hc⟩
    cases e with
    | node m =>
      cases hc
      exact he
    | leaf l => cases hc

theorem tree_mem_trees {n c : Node} (h : c ∈ n.nodes) : .branch c.kind c.trees ∈ n.trees := by
  rw [← Spot.tree_eq, ← tree_elements]
  exact List.mem_map_of_mem (f := Element.tree) (node_mem_elements.mpr h)

theorem exists_parent {n m : Node} (h : m ∈ n.descendants) :
    m = n ∨ ∃ p ∈ n.descendants, m ∈ p.nodes := by
  have hw : .node m ∈ n.walk := by
    obtain ⟨e, he, hm⟩ := List.mem_filterMap.mp h
    cases e with
    | node k =>
      cases hm
      exact he
    | leaf l => cases hm
  obtain he | ⟨p, hp, he⟩ := mem_elements_of_mem_walk hw
  · exact .inl (Element.node.inj he)
  · exact .inr ⟨p, hp, node_mem_elements.mp he⟩

theorem above_of_mem_elements {n : Node} {e : Element} (h : e ∈ n.elements) :
    e.above = n.toSpot :: n.above := by
  obtain ⟨t, -, rfl⟩ := List.mem_map.mp h
  cases t <;> rfl

theorem above_of_mem_nodes {n c : Node} (h : c ∈ n.nodes) : c.above = n.toSpot :: n.above :=
  above_of_mem_elements (node_mem_elements.mpr h)

theorem outer_of_mem_nodes {n c : Node} (h : c ∈ n.nodes) : c.outer = n :: n.outer := by
  rw [outer, above_of_mem_nodes h]
  rfl

theorem parent?_of_mem_nodes {n c : Node} (h : c ∈ n.nodes) : c.parent? = some n := by
  rw [parent?, outer_of_mem_nodes h, List.head?_cons]

theorem eq_of_mem_nodes {n m c : Node} (h : c ∈ n.nodes) (h' : c ∈ m.nodes) : n = m := by
  have hp := parent?_of_mem_nodes h
  rw [parent?_of_mem_nodes h', Option.some.injEq] at hp
  exact hp.symm

theorem mem_descendants_self (n : Node) : n ∈ n.descendants := by
  rw [PlacedTree.descendants_eq, placed, PlacedTree.nodes_branch]
  exact List.mem_cons_self

theorem length_above_of_mem_outer {n m : Node} (h : m ∈ n.outer) :
    m.above.length < n.above.length := by
  rw [outer] at h
  generalize n.above = above at h
  induction above with
  | nil => cases h
  | cons s above ih =>
    rw [trail] at h
    obtain rfl | h := List.mem_cons.mp h
    · exact Nat.lt_succ_self _
    · exact Nat.lt_succ_of_lt (ih h)

/-- What holds of a node, and of all children of nodes it holds of, holds of all nodes in it. -/
theorem descendants_induct {n : Node} {motive : Node → Prop} (self : motive n)
    (child : ∀ p c, p ∈ n.descendants → c ∈ p.nodes → motive p → motive c) :
    ∀ m ∈ n.descendants, motive m := by
  intro m hm
  generalize hl : m.above.length = l
  induction l using Nat.strongRecOn generalizing m with
  | ind l ih =>
    obtain rfl | ⟨p, hp, hc⟩ := exists_parent hm
    · exact self
    · have ha : p.above.length < l := by
        rw [← hl, above_of_mem_nodes hc]
        exact Nat.lt_succ_self _
      exact child p m hp hc (ih _ ha p hp rfl)

theorem descendants_trans {a b c : Node} (h : b ∈ a.descendants) (h' : c ∈ b.descendants) :
    c ∈ a.descendants :=
  descendants_induct h (fun _ _ _ hc hp => mem_descendants_of_mem_nodes hp hc) c h'

theorem mem_descendants_of_mem_outer {root n : Node} (ha : root.above = [])
    (h : n ∈ root.descendants) : ∀ m ∈ n.outer, m ∈ root.descendants := by
  refine descendants_induct (motive := fun n => ∀ m ∈ n.outer, m ∈ root.descendants) ?_ ?_ n h
  · simp [outer, ha, trail]
  · intro p c hp hc ih m hm
    rw [outer_of_mem_nodes hc] at hm
    obtain rfl | hm := List.mem_cons.mp hm
    · exact hp
    · exact ih m hm

end Node

namespace PlacedTree

/-- The tree was placed somewhere, so its parts have their numbers. -/
def IsPlaced (t : PlacedTree) : Prop := ∃ start index tree, t = Tree.place start index tree

theorem isPlaced_of_mem_placeAll {ts : List Tree} {start index : Nat} {t : PlacedTree}
    (h : t ∈ (Tree.placeAll start index ts).1) : t.IsPlaced := by
  induction ts generalizing start index with
  | nil => simp [Tree.placeAll] at h
  | cons u us ih =>
    rw [Tree.placeAll, List.mem_cons] at h
    obtain rfl | h := h
    · exact ⟨_, _, _, rfl⟩
    · exact ih h

theorem IsPlaced.of_mem {m : Mark} {ts : List PlacedTree} (h : IsPlaced (.branch m ts))
    {t : PlacedTree} (ht : t ∈ ts) : t.IsPlaced := by
  obtain ⟨start, index, tree, h⟩ := h
  cases tree with
  | leaf l => cases h
  | branch k us =>
    rw [Tree.place, Rose.branch.injEq] at h
    obtain ⟨-, rfl⟩ := h
    exact isPlaced_of_mem_placeAll ht

theorem IsPlaced.of_mem_nodes {t : PlacedTree} (h : t.IsPlaced) {above : List Spot} {n : Node}
    (hn : n ∈ nodes above t) : n.placed.IsPlaced := by
  induction t using Rose.induct generalizing above with
  | leaf t => simp at hn
  | branch m ts ih =>
    rw [nodes_branch, List.mem_cons, List.mem_flatMap] at hn
    obtain rfl | ⟨u, hu, hn⟩ := hn
    · exact h
    · exact ih u hu (h.of_mem hu) hn

def index? : PlacedTree → Option Nat
  | .leaf _ => none
  | .branch m _ => some m.index

theorem index_placeAll (start index : Nat) (ts : List Tree) :
    ((Tree.placeAll start index ts).1.filterMap index?).Pairwise (· < ·) ∧
      ∀ i ∈ (Tree.placeAll start index ts).1.filterMap index?, index ≤ i := by
  induction ts generalizing start index with
  | nil => simp [Tree.placeAll]
  | cons t ts ih =>
    obtain ⟨hp, hle⟩ := ih (range (Tree.place start index t)).stop (index + 1)
    rw [Tree.placeAll]
    cases t with
    | leaf l =>
      rw [List.filterMap_cons_none rfl]
      exact ⟨hp, fun i hi => Nat.le_of_succ_le (hle i hi)⟩
    | branch k us =>
      have hi : index? (Tree.place start index (.branch k us)) = some index := rfl
      rw [List.filterMap_cons_some hi, List.pairwise_cons]
      refine ⟨⟨hle, hp⟩, fun i hi => ?_⟩
      obtain rfl | hi := List.mem_cons.mp hi
      · exact Nat.le_refl _
      · exact Nat.le_of_succ_le (hle i hi)

end PlacedTree

namespace Node

theorem isPlaced_of_mem_root {kind : Kind} {content : List Tree} {n : Node}
    (h : n ∈ (root kind content).descendants) : n.placed.IsPlaced :=
  PlacedTree.IsPlaced.of_mem_nodes ⟨0, 0, .branch kind content, rfl⟩ h

theorem index_nodes (n : Node) :
    n.nodes.map (·.mark.index) = n.children.filterMap PlacedTree.index? := by
  rw [nodes, elements, List.filterMap_map, List.map_filterMap]
  congr 1
  funext t
  cases t <;> rfl

theorem nodes_nodup {n : Node} (h : n.placed.IsPlaced) : n.nodes.Nodup := by
  obtain ⟨start, index, tree, h⟩ := h
  cases tree with
  | leaf l => cases h
  | branch k us =>
    rw [placed, Tree.place, Rose.branch.injEq] at h
    have hp := (PlacedTree.index_placeAll start 0 us).1
    rw [← h.2, ← index_nodes, List.pairwise_map] at hp
    refine hp.imp fun hlt => ?_
    rintro rfl
    exact Nat.lt_irrefl _ hlt

end Node

namespace Element

@[simp] theorem kind_node (n : Node) : (node n).kind = n.kind := rfl

@[simp] theorem kind_leaf (l : Leaf) : (leaf l).kind = l.kind := rfl

@[simp] theorem node?_node (n : Node) : (node n).node? = some n := rfl

@[simp] theorem node?_leaf (l : Leaf) : (leaf l).node? = none := rfl

@[simp] theorem leaf?_node (n : Node) : (node n).leaf? = none := rfl

@[simp] theorem leaf?_leaf (l : Leaf) : (leaf l).leaf? = some l := rfl

def expr? (e : Element) : Option Node := e.node?.filter (·.kind.isExpr)

@[simp] theorem expr?_leaf (l : Leaf) : (leaf l).expr? = none := rfl

theorem expr?_node {n : Node} (h : n.kind.isExpr = true) : (node n).expr? = some n := by
  simp [expr?, h]

theorem expr?_eq_none {n : Node} (h : n.kind.isExpr = false) : (node n).expr? = none := by
  simp [expr?, h]

theorem find?_isExpr (es : List Element) :
    (es.filterMap node?).find? (·.kind.isExpr) = es.findSome? expr? := by
  induction es with
  | nil => rfl
  | cons e es ih =>
    cases e with
    | leaf l =>
      rw [List.filterMap_cons_none (node?_leaf l), List.findSome?_cons, expr?_leaf]
      exact ih
    | node n =>
      rw [List.filterMap_cons_some (node?_node n), List.find?_cons, List.findSome?_cons, ih]
      cases h : n.kind.isExpr with
      | false => rw [expr?_eq_none h]
      | true => rw [expr?_node h]

def isSolid (e : Element) : Bool := e.tree.isSolid

@[simp] theorem isSolid_node (n : Node) : (node n).isSolid = true := by
  rw [isSolid, tree, Spot.tree_eq]
  rfl

@[simp] theorem isSolid_leaf (l : Leaf) : (leaf l).isSolid = !l.kind.isTrivia := rfl

theorem kind_ne_of_not_isSolid {e : Element} {k : Kind} (hk : k.isTrivia = false)
    (h : e.isSolid = false) : e.kind ≠ k := by
  rw [← e.kind_tree]
  exact Tree.kind_ne_of_not_isSolid hk h

theorem filterMap_node? (es : List Element) :
    (es.filter isSolid).filterMap node? = es.filterMap node? := by
  rw [List.filterMap_filter]
  congr 1
  funext e
  cases e with
  | node n => simp
  | leaf l => simp

theorem takeWhile_solid {k : Kind} (hk : k.isTrivia = false) (es : List Element) :
    (es.filter isSolid).takeWhile (·.kind != k) = (es.takeWhile (·.kind != k)).filter isSolid := by
  induction es with
  | nil => rfl
  | cons e es ih =>
    cases hs : e.isSolid with
    | false =>
      have hn := kind_ne_of_not_isSolid hk hs
      simp_all
    | true => by_cases he : e.kind = k <;> simp_all

theorem dropWhile_solid {k : Kind} (hk : k.isTrivia = false) (es : List Element) :
    (es.filter isSolid).dropWhile (·.kind != k) = (es.dropWhile (·.kind != k)).filter isSolid := by
  have hcut : (es.filter isSolid).takeWhile (·.kind != k) ++
        (es.filter isSolid).dropWhile (·.kind != k) =
      (es.takeWhile (·.kind != k)).filter isSolid ++
        (es.dropWhile (·.kind != k)).filter isSolid := by
    rw [← List.filter_append, List.takeWhile_append_dropWhile, List.takeWhile_append_dropWhile]
  rw [takeWhile_solid hk] at hcut
  exact List.append_cancel_left hcut

theorem find?_leaf {p : Leaf → Bool} (hp : ∀ l, l.kind.isTrivia = true → p l = false)
    (es : List Element) :
    ((es.filter isSolid).filterMap leaf?).find? p = (es.filterMap leaf?).find? p := by
  induction es with
  | nil => rfl
  | cons e es ih =>
    cases e with
    | node n => simpa using ih
    | leaf l =>
      cases hl : l.kind.isTrivia with
      | false => simp [hl, List.find?_cons, ih]
      | true => simp [hl, ih, hp l hl]

end Element

namespace Node

def solids (n : Node) : List Element := n.elements.filter Element.isSolid

variable (n : Node)

theorem tree_solids : n.solids.map Element.tree = Tree.solid n.trees := by
  rw [← tree_elements, Tree.solid, List.filter_map]
  rfl

theorem nodes_eq_solids : n.nodes = n.solids.filterMap Element.node? :=
  (Element.filterMap_node? _).symm

theorem expr?_eq_solids : n.expr? = n.solids.findSome? Element.expr? := by
  rw [expr?, nodes_eq_solids, Element.find?_isExpr]

theorem exprBefore?_eq_solids {k : Kind} (hk : k.isTrivia = false) :
    n.exprBefore? k = (n.solids.takeWhile (·.kind != k)).findSome? Element.expr? := by
  rw [solids, Element.takeWhile_solid hk, ← Element.find?_isExpr, Element.filterMap_node?]
  rfl

theorem exprAfter?_eq_solids {k : Kind} (hk : k.isTrivia = false) :
    n.exprAfter? k = (n.solids.dropWhile (·.kind != k)).findSome? Element.expr? := by
  rw [solids, Element.dropWhile_solid hk, ← Element.find?_isExpr, Element.filterMap_node?]
  rfl

theorem token?_eq_solids {k : Kind} (hk : k.isTrivia = false) :
    n.token? k = (n.solids.filterMap Element.leaf?).find? (·.kind == k) := by
  rw [solids, Element.find?_leaf]
  · rfl
  · rintro l hl
    rw [beq_eq_false_iff_ne]
    rintro rfl
    rw [hk] at hl
    cases hl

theorem solidToken?_eq_solids :
    n.solidToken? = (n.solids.filterMap Element.leaf?).find? (!·.kind.isTrivia) := by
  rw [solids, Element.find?_leaf (by simp)]
  rfl

theorem spelling?_eq_solids : Attr.spelling? n = n.solids.findSome? Attr.spellingOf? := by
  rw [solids, Attr.spelling?]
  induction n.elements with
  | nil => rfl
  | cons e es ih =>
    cases e with
    | node m => simp [List.findSome?_cons, ih]
    | leaf l =>
      cases hl : l.kind.isTrivia with
      | false => simp [hl, List.findSome?_cons, ih]
      | true =>
        have hs : Attr.spellingOf? (.leaf l) = none := by
          rw [Attr.spellingOf?, if_neg]
          rintro (hk | hk) <;> simp [hk, Kind.isTrivia] at hl
        simp [hl, hs, ih]

end Node

end NixScope.Syntax
