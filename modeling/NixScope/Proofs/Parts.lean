import NixScope.Proofs.Tree
import NixScope.Syntax.Node.Parts

namespace NixScope.Syntax

namespace Tree

def isExprNode : Tree → Bool
  | .leaf _ => false
  | .branch k _ => k.isExpr

def token? : Tree → Option Token
  | .leaf t => some t
  | .branch _ _ => none

@[simp] theorem isExprNode_leaf (t : Token) : isExprNode (.leaf t) = false := rfl

@[simp] theorem isExprNode_branch (k : Kind) (ts : List Tree) :
    isExprNode (.branch k ts) = k.isExpr := rfl

@[simp] theorem token?_branch (k : Kind) (ts : List Tree) : token? (.branch k ts) = none := rfl

@[simp] theorem kind_leaf (t : Token) : kind (.leaf t) = t.kind := rfl

@[simp] theorem kind_branch (k : Kind) (ts : List Tree) : kind (.branch k ts) = k := rfl

theorem token?_of_isExprNode {t : Tree} (h : t.isExprNode = true) : t.token? = none := by
  cases t with
  | leaf t => cases h
  | branch k ts => rfl

theorem isSolid_of_isExprNode {t : Tree} (h : t.isExprNode = true) : t.isSolid = true := by
  cases t with
  | leaf t => cases h
  | branch k ts => rfl

theorem kind_ne_of_not_isSolid {t : Tree} {k : Kind} (hk : k.isTrivia = false)
    (h : t.isSolid = false) : t.kind ≠ k := by
  cases t with
  | leaf t =>
    rintro rfl
    simp_all [isSolid, kind, Token.isTrivia]
  | branch k ts => cases h

theorem find?_solid (ts : List Tree) : (solid ts).find? isExprNode = ts.find? isExprNode := by
  rw [solid, List.find?_filter]
  congr 1
  funext t
  cases h : t.isExprNode with
  | false => simp
  | true => simp [isSolid_of_isExprNode h]

theorem filter_solid (ts : List Tree) : (solid ts).filter isExprNode = ts.filter isExprNode := by
  rw [solid, List.filter_filter]
  congr 1
  funext t
  cases h : t.isExprNode with
  | false => simp
  | true => simp [isSolid_of_isExprNode h]

theorem solid_takeWhile {k : Kind} (hk : k.isTrivia = false) (ts : List Tree) :
    solid (ts.takeWhile (·.kind != k)) = (solid ts).takeWhile (·.kind != k) := by
  induction ts with
  | nil => rfl
  | cons t ts ih =>
    cases hs : t.isSolid with
    | false =>
      have hn := kind_ne_of_not_isSolid hk hs
      simp_all [solid]
    | true => by_cases ht : t.kind = k <;> simp_all [solid]

theorem solid_dropWhile {k : Kind} (hk : k.isTrivia = false) (ts : List Tree) :
    solid (ts.dropWhile (·.kind != k)) = (solid ts).dropWhile (·.kind != k) := by
  have hcut : solid (ts.takeWhile (·.kind != k)) ++ solid (ts.dropWhile (·.kind != k)) =
      (solid ts).takeWhile (·.kind != k) ++ (solid ts).dropWhile (·.kind != k) := by
    rw [← solid_append, List.takeWhile_append_dropWhile, List.takeWhile_append_dropWhile]
  rw [solid_takeWhile hk] at hcut
  exact List.append_cancel_left hcut

end Tree

def Element.tree : Element → Tree
  | .node n => n.tree
  | .leaf l => .leaf l.token

theorem Element.kind_tree (e : Element) : e.tree.kind = e.kind := by
  cases e with
  | node n =>
    rw [tree, Spot.tree_eq]
    rfl
  | leaf l => rfl

theorem Element.tree_find? (es : List Element) :
    ((es.filterMap Element.node?).find? (·.kind.isExpr)).map (·.tree) =
      (es.map Element.tree).find? Tree.isExprNode := by
  induction es with
  | nil => rfl
  | cons e es ih =>
    cases e with
    | leaf l => simpa [Element.node?, Element.tree] using ih
    | node n =>
      have ht : n.tree.isExprNode = n.kind.isExpr := by rw [Spot.tree_eq, Tree.isExprNode_branch]
      cases hk : n.kind.isExpr <;> simp_all [Element.node?, Element.tree]

namespace Node

variable (n : Node)

theorem tree_elements : n.elements.map Element.tree = n.trees := by
  simp only [elements, Spot.trees, List.map_map]
  congr 1
  funext t
  cases t <;> rfl

theorem tree_exprs : n.exprs.map (·.tree) = (Tree.solid n.trees).filter Tree.isExprNode := by
  rw [Tree.filter_solid, ← tree_elements, exprs, nodes]
  induction n.elements with
  | nil => rfl
  | cons e es ih =>
    cases e with
    | leaf l =>
      rw [List.filterMap_cons_none rfl, List.map_cons, List.filter_cons_of_neg (by nofun)]
      exact ih
    | node m =>
      have ht : m.tree.isExprNode = m.kind.isExpr := by rw [Spot.tree_eq, Tree.isExprNode_branch]
      cases hk : m.kind.isExpr <;> simp_all [Element.node?, Element.tree]

theorem tree_expr? : n.expr?.map (·.tree) = (Tree.solid n.trees).find? Tree.isExprNode := by
  rw [Tree.find?_solid, ← tree_elements, ← Element.tree_find?]
  rfl

theorem tree_exprBefore? {k : Kind} (hk : k.isTrivia = false) :
    (n.exprBefore? k).map (·.tree) =
      ((Tree.solid n.trees).takeWhile (·.kind != k)).find? Tree.isExprNode := by
  rw [← Tree.solid_takeWhile hk, Tree.find?_solid, ← tree_elements, List.takeWhile_map, exprBefore?,
    Element.tree_find?]
  simp only [Function.comp_def, Element.kind_tree]

theorem tree_exprAfter? {k : Kind} (hk : k.isTrivia = false) :
    (n.exprAfter? k).map (·.tree) =
      ((Tree.solid n.trees).dropWhile (·.kind != k)).find? Tree.isExprNode := by
  rw [← Tree.solid_dropWhile hk, Tree.find?_solid, ← tree_elements, List.dropWhile_map, exprAfter?,
    Element.tree_find?]
  simp only [Function.comp_def, Element.kind_tree]

theorem token_solidToken? :
    n.solidToken?.map (·.token) = (Tree.solid n.trees).findSome? Tree.token? := by
  rw [← tree_elements, solidToken?, leaves]
  induction n.elements with
  | nil => rfl
  | cons e es ih =>
    cases e with
    | leaf l =>
      have he : Element.leaf? (.leaf l) = some l := rfl
      have hs : (Element.leaf l).tree.isSolid = !l.kind.isTrivia := rfl
      rw [List.filterMap_cons_some he, List.map_cons, List.find?_cons, Tree.solid,
        List.filter_cons, hs]
      cases l.kind.isTrivia with
      | false => rfl
      | true => exact ih
    | node m =>
      have hs : (Element.node m).tree.isSolid = true := by
        rw [Element.tree, Spot.tree_eq]
        rfl
      have ht : (Element.node m).tree.token? = none := by
        rw [Element.tree, Spot.tree_eq, Tree.token?_branch]
      rw [List.filterMap_cons_none rfl, List.map_cons, Tree.solid, List.filter_cons_of_pos hs,
        List.findSome?_cons, ht]
      exact ih

end Node

end NixScope.Syntax
