import NixScope.Names.Usage
import NixScope.Proofs.Elements
import NixScope.Proofs.Lexemes
import NixScope.Proofs.Segments
import NixScope.Proofs.Usages

namespace NixScope

namespace Syntax

def Tree.children : Tree → List Tree
  | .leaf _ => []
  | .branch _ ts => ts

namespace Node

/-- The node that a tree becomes which stands at an offset under the nodes `above`, as the child of
the given number. -/
def laid (above : List Spot) (start index : Nat) (kind : Kind) (ts : List Tree) : Node :=
  let placed := Tree.placeAll start 0 ts
  ⟨⟨⟨⟨kind, ⟨start, placed.2⟩⟩, index⟩, placed.1⟩, above⟩

def ofTree (above : List Spot) (start index : Nat) (t : Tree) : Node :=
  laid above start index t.kind t.children

def aboveParts (above : List Spot) (start index : Nat) (t : Tree) : List Spot :=
  (ofTree above start index t).toSpot :: above

def laidAll (above : List Spot) : (start index : Nat) → List Tree → List Element
  | _, _, [] => []
  | start, index, .leaf t :: ts =>
    .leaf ⟨⟨t, ⟨start, start + t.width⟩⟩, above⟩ :: laidAll above (start + t.width) (index + 1) ts
  | start, index, .branch kind us :: ts =>
    .node (laid above start index kind us) ::
      laidAll above (start + Tree.widthOf us) (index + 1) ts

variable (above : List Spot) (start index : Nat) (kind : Kind) (ts us : List Tree)

@[simp] theorem kind_laid : (laid above start index kind ts).kind = kind := rfl

theorem stop_place (t : Tree) :
    (PlacedTree.range (Tree.place start index t)).stop = start + t.width := by
  obtain ⟨hw, hs⟩ := t.place_wellPlaced start index
  rw [hw.stop_eq, hs, Tree.tree_place]

theorem stop_placeAll : (Tree.placeAll start index ts).2 = start + Tree.widthOf ts := by
  induction ts generalizing start index with
  | nil => rfl
  | cons t ts ih =>
    rw [Tree.placeAll, ih, stop_place, Tree.widthOf_cons, Nat.add_assoc]

theorem pointer_laid :
    (laid above start index kind ts).pointer = ⟨kind, start, start + Tree.widthOf ts⟩ := by
  rw [← stop_placeAll start 0 ts]
  rfl

theorem element_placeAll :
    (Tree.placeAll start index ts).1.map (PlacedTree.element above) =
      laidAll above start index ts := by
  induction ts generalizing start index with
  | nil => rfl
  | cons t ts ih =>
    rw [Tree.placeAll, List.map_cons, ih, stop_place]
    cases t <;> rfl

theorem elements_laid : (laid above start index kind ts).elements =
    laidAll ((laid above start index kind ts).toSpot :: above) start 0 ts :=
  element_placeAll ..

theorem nodes_laid : (laid above start index kind ts).nodes =
    (laidAll ((laid above start index kind ts).toSpot :: above) start 0 ts).filterMap
      Element.node? := by
  rw [nodes, elements_laid]

theorem laidAll_append : laidAll above start index (ts ++ us) =
    laidAll above start index ts ++
      laidAll above (start + Tree.widthOf ts) (index + ts.length) us := by
  induction ts generalizing start index with
  | nil => rfl
  | cons t ts ih =>
    have hi : index + (t :: ts).length = index + 1 + ts.length := by
      rw [List.length_cons]
      omega
    rw [List.cons_append, Tree.widthOf_cons, hi, ← Nat.add_assoc]
    cases t with
    | leaf t => rw [laidAll, laidAll, ih, Tree.width_leaf, List.cons_append]
    | branch k vs => rw [laidAll, laidAll, ih, Tree.width_branch, List.cons_append]

theorem nodes_of_leaves (tokens : List Token) :
    (laid above start index kind (tokens.map .leaf)).nodes = [] := by
  have hall : ∀ above start index,
      (laidAll above start index (tokens.map .leaf)).filterMap Element.node? = [] := by
    induction tokens with
    | nil => exact fun _ _ _ => rfl
    | cons t tokens ih => exact fun above _ _ => ih above _ _
  rw [nodes_laid, hall]

theorem flatMap_descendants (ps : List PlacedTree) :
    ((ps.map (PlacedTree.element above)).filterMap Element.node?).flatMap descendants =
      ps.flatMap (PlacedTree.nodes above) := by
  induction ps with
  | nil => rfl
  | cons p ps ih =>
    rw [List.flatMap_cons, ← ih]
    cases p <;> rfl

theorem descendants_eq_cons (n : Node) : n.descendants = n :: n.nodes.flatMap descendants := by
  rw [PlacedTree.descendants_eq, placed, PlacedTree.nodes_branch]
  exact congrArg (n :: ·) (flatMap_descendants _ _).symm

end Node

end Syntax

open Syntax Node

namespace Usage

theorem under_eq (n : Node) : under n = (of? n).toList ++ n.nodes.flatMap under := by
  rw [under, descendants_eq_cons, List.filterMap_cons, List.filterMap_flatMap]
  cases of? n <;> rfl

theorem under_of_not_isUsage {n : Node} (h : n.kind.isUsage = false) :
    under n = n.nodes.flatMap under := by
  rw [under_eq, of?_eq_none h]
  rfl

def within (above : List Spot) (start index : Nat) : Tree → List Usage
  | .leaf _ => []
  | .branch kind ts => under (laid above start index kind ts)

def withinAll (above : List Spot) : (start index : Nat) → List Tree → List Usage
  | _, _, [] => []
  | start, index, t :: ts =>
    within above start index t ++ withinAll above (start + t.width) (index + 1) ts

theorem within_leaf (above : List Spot) (start index : Nat) (t : Token) :
    within above start index (.leaf t) = [] := rfl

theorem flatMap_laidAll (above : List Spot) (start index : Nat) (ts : List Tree) :
    ((laidAll above start index ts).filterMap Element.node?).flatMap under =
      withinAll above start index ts := by
  induction ts generalizing start index with
  | nil => rfl
  | cons t ts ih =>
    rw [withinAll, ← ih]
    cases t <;> rfl

theorem within_branch {kind : Kind} (h : kind.isUsage = false) (above : List Spot)
    (start index : Nat) (ts : List Tree) : within above start index (.branch kind ts) =
      withinAll ((laid above start index kind ts).toSpot :: above) start 0 ts := by
  have hk : (laid above start index kind ts).kind.isUsage = false := h
  rw [within, under_of_not_isUsage hk, nodes_laid, flatMap_laidAll]

theorem under_root (t : Tree) : under (root .root [t]) =
    within [(root .root [t]).toSpot] 0 0 t := by
  have h := within_branch (show Kind.root.isUsage = false from rfl) [] 0 0 [t]
  rw [withinAll, withinAll, List.append_nil] at h
  exact h

theorem under_var {n : Node} {name : String} (hk : n.kind = .var) (hp : isSelectBase n = false)
    (hn : Var.name? n = some name) (hnodes : n.nodes = []) :
    under n = [⟨n, ⟨.static name, n⟩, []⟩] := by
  have ho : of? n = some ⟨n, ⟨.static name, n⟩, []⟩ := by
    rw [of?, if_pos hk, ofVar?, hp, Segment.ofVar?, hn]
    rfl
  rw [under_eq, ho, hnodes]
  rfl

/-- A selection from a variable is a usage of the variable. The variable by itself is none, so the
only other usages are behind the path. -/
theorem under_select {n base path a : Node} {as : List Node} {dot : Leaf} {name : String}
    {more : List Element} (hk : n.kind = .select)
    (he : n.elements = .node base :: .leaf dot :: .node path :: more) (hd : dot.kind = .dot)
    (hb : base.kind = .var) (hn : Var.name? base = some name) (hnodes : base.nodes = [])
    (hp : path.kind = .attrPath) (ha : AttrPath.attrs path = a :: as) (hu : under path = []) :
    under n = ⟨n, ⟨.static name, base⟩, (a :: as).map .ofAttr⟩ ::
      (more.filterMap Element.node?).flatMap under := by
  have hns : n.nodes = base :: path :: more.filterMap Element.node? := by
    rw [nodes_of_elements he]
    rfl
  have hbase : Select.base? n = some base := by
    simp [Select.base?, exprBefore?, he, hd, hb, Kind.isExpr]
  have hpath : Select.path? n = some path := by
    simp [Select.path?, child?, hns, hb, hp]
  have hnone : of? base = none :=
    of?_selectBase (by simp [hns]) hk hbase hb
  have ho : of? n = some ⟨n, ⟨.static name, base⟩, (a :: as).map .ofAttr⟩ := by
    rw [of?, if_neg (by simp [hk]), if_pos hk, ofSelect?, hbase, hpath, Option.filter_some,
      if_pos (by simp [hb]), Option.map_some, ha]
    simp [Segment.ofVar?, hn]
  rw [under_eq n, ho, hns, List.flatMap_cons, List.flatMap_cons, under_eq base, hnone, hnodes, hu]
  rfl

theorem under_inherited {n clause a : Node} (hk : n.kind = .inheritedName)
    (hp : InheritedName.inherit? n = some clause) (hs : Inherit.source? clause = none)
    (hn : n.nodes = [a]) (ha : a.kind = .attr) (hu : under a = []) :
    under n = [⟨n, .ofAttr a, []⟩] := by
  have hattr : InheritedName.attr? n = some a := by simp [InheritedName.attr?, child?, hn, ha]
  have ho : of? n = some ⟨n, .ofAttr a, []⟩ := by
    simp [of?, hk, ofInherited?, hp, hs, hattr]
  rw [under_eq, ho, hn, List.flatMap_singleton, hu]
  rfl

end Usage

namespace Attribute

def content (name : String) : List Tree :=
  if isPlain name.toList then [.leaf (Token.word name)]
  else [.branch .string ((Token.quoted name.toList).map .leaf)]

def tree (name : String) : Tree := .branch .attr (content name)

variable (above : List Spot) (start index : Nat) (name : String)

theorem isPlain_iff {cs : List Char} : isPlain cs = true ↔
    Scan.isWord cs = true ∧ (Scan.keyword? cs).all (· == .orKw) = true := by
  cases cs with
  | nil => simp [isPlain, Scan.isWord]
  | cons c cs => simp [isPlain, Scan.isWord]

theorem content_cases :
    (content name = [.leaf (Token.word name)] ∧ Scan.isWord name.toList = true ∧
      ((Token.word name).kind = .ident ∨ (Token.word name).kind = .orKw)) ∨
    content name = [.branch .string ((Token.quoted name.toList).map .leaf)] := by
  by_cases hp : isPlain name.toList = true
  · obtain ⟨hw, hk⟩ := isPlain_iff.mp hp
    refine .inl ⟨if_pos hp, hw, ?_⟩
    rw [Token.word]
    cases hs : Scan.keyword? name.toList with
    | none => exact .inl rfl
    | some k =>
      rw [hs] at hk
      exact .inr (by simpa using hk)
  · exact .inr (if_neg hp)

theorem value?_quoted (cs : List Char) :
    StringLiteral.value? (laid above start index .string ((Token.quoted cs).map .leaf)) =
      some (String.ofList cs) := by
  rw [StringLiteral.value?, StringLiteral.parts, StringLiteral.isIndented, token?, leaves,
    elements_laid, Token.quoted]
  split
  · rename_i hnil
    rw [hnil]
    rfl
  · simp [laidAll, StringLiteral.decodePart, Leaf.kind, Leaf.text, Quoted.decode_encode]

theorem ofNode_laid : ofNode (laid above start index .attr (content name)) = .static name := by
  have hs : Attr.staticName? (laid above start index .attr (content name)) = some name := by
    obtain ⟨hc, -, hk⟩ | hc := content_cases name
    · have ht : (Token.word name).text = name := rfl
      simp [Attr.staticName?, Attr.spelling?, elements_laid, hc, laidAll, Attr.spellingOf?,
        Leaf.kind, hk, Leaf.text, ht]
    · simp [Attr.staticName?, Attr.spelling?, elements_laid, hc, laidAll, Attr.spellingOf?,
        value?_quoted]
  rw [ofNode, hs]

theorem under_laid : Usage.under (laid above start index .attr (content name)) = [] := by
  rw [Usage.under_of_not_isUsage rfl, nodes_laid]
  obtain ⟨hc, -, -⟩ | hc := content_cases name
  · rw [hc]
    rfl
  · rw [hc, laidAll, laidAll, List.filterMap_cons_some (Element.node?_node _), List.filterMap_nil,
      List.flatMap_singleton, Usage.under_of_not_isUsage rfl, nodes_of_leaves]
    rfl

end Attribute

end NixScope
