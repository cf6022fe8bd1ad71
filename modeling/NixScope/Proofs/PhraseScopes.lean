import NixScope.Proofs.Binders

namespace NixScope

open Syntax Node

variable (above : List Spot) (start index : Nat)

namespace Usage

theorem within_path (name : String) :
    within above start index (.branch .attrPath [Attribute.tree name]) = [] :=
  AttributePath.under_path above start index name []

theorem within_definition (name : String) (v : Tree) :
    within above start index (Tree.definition (Attribute.tree name) v) =
      within (aboveParts above start index (Tree.definition (Attribute.tree name) v))
        (start + Tree.width (.branch .attrPath [Attribute.tree name]) + 3) 4 v := by
  refine (within_branch rfl ..).trans ?_
  simp only [Tree.spaced, List.cons_append, List.nil_append, withinAll, within_path, within_leaf,
    List.append_nil]
  rfl

theorem within_inheritance (name : String) :
    ∃ u, within above start index (Tree.inheritance (Attribute.tree name)) = [u] ∧
      u.element = ofTree (aboveParts above start index (Tree.inheritance (Attribute.tree name)))
        (start + 8) 2 (.branch .inheritedName [Attribute.tree name]) ∧
      u.path = .ofNames name [] := by
  have hw : within above start index (Tree.inheritance (Attribute.tree name)) =
      within (aboveParts above start index (Tree.inheritance (Attribute.tree name)))
        (start + 8) 2 (.branch .inheritedName [Attribute.tree name]) := by
    refine (within_branch rfl ..).trans ?_
    simp only [Tree.spaced, List.cons_append, List.nil_append, withinAll, within_leaf,
      List.append_nil]
    rfl
  have hs : Inherit.source? (ofTree above start index (Tree.inheritance (Attribute.tree name))) =
      none := by
    rw [Inherit.source?, child?, ofTree, nodes_laid]
    rfl
  have hu := under_inherited (n := ofTree
    (aboveParts above start index (Tree.inheritance (Attribute.tree name))) (start + 8) 2
    (.branch .inheritedName [Attribute.tree name])) rfl rfl hs (nodes_laid ..) rfl
    (Attribute.under_laid ..)
  refine ⟨_, hw.trans hu, rfl, ?_⟩
  exact congrArg (AttributePath.mk · []) (Attribute.ofNode_laid ..)

theorem within_paren (t : Tree) : within above start index (Tree.paren t) =
    within (aboveParts above start index (Tree.paren t)) (start + 1) 1 t := by
  refine (within_branch rfl ..).trans ?_
  simp only [withinAll, within_leaf, List.nil_append, List.append_nil]
  rfl

theorem within_letIn (name : String) (v b : Tree) :
    within above start index (Tree.letIn (Attribute.tree name) v b) =
      within (aboveParts above start index (Tree.letIn (Attribute.tree name) v b)) (start + 4) 2
        (Tree.definition (Attribute.tree name) v) ++
      within (aboveParts above start index (Tree.letIn (Attribute.tree name) v b))
        (start + 4 + (Tree.definition (Attribute.tree name) v).width + 4) 6 b := by
  refine (within_branch rfl ..).trans ?_
  simp only [Tree.spaced, List.cons_append, List.nil_append, withinAll, within_leaf,
    List.append_nil]
  generalize (Tree.definition (Attribute.tree name) v).width = w
  rfl

theorem within_nameLambda (x : Token) (b : Tree) :
    within above start index (Tree.nameLambda x b) =
      within (aboveParts above start index (Tree.nameLambda x b))
        (start + (Tree.paramName x).width + 2) 3 b := by
  refine (within_branch rfl ..).trans ?_
  simp only [Tree.spaced, withinAll, within_leaf, List.nil_append, List.append_nil]
  rfl

theorem within_patternLambda {x y : Token} {v b : Tree}
    (hv : ∀ above start index, within above start index (Tree.pattern x y v) = []) :
    within above start index (Tree.patternLambda x y v b) =
      within (aboveParts above start index (Tree.patternLambda x y v b))
        (start + (Tree.pattern x y v).width + 2) 3 b := by
  refine (within_branch rfl ..).trans ?_
  simp only [Tree.spaced, withinAll, within_leaf, hv, List.nil_append, List.append_nil]
  generalize (Tree.pattern x y v).width = w
  rfl

theorem within_withIn (v b : Tree) : within above start index (Tree.withIn v b) =
    within (aboveParts above start index (Tree.withIn v b)) (start + 5) 2 (Tree.paren v) ++
      within (aboveParts above start index (Tree.withIn v b))
        (start + 5 + (Tree.paren v).width + 2) 5 b := by
  refine (within_branch rfl ..).trans ?_
  simp only [Tree.spaced, List.cons_append, List.nil_append, withinAll, within_leaf,
    List.append_nil]
  rfl

theorem within_recSet (name : String) (v a : Tree) :
    within above start index (Tree.recSet (Attribute.tree name) v a) =
      within (aboveParts above start index (Tree.recSet (Attribute.tree name) v a)) (start + 6) 4
        (Tree.definition (Attribute.tree name) v) ++
      within (aboveParts above start index (Tree.recSet (Attribute.tree name) v a))
        (start + 6 + (Tree.definition (Attribute.tree name) v).width + 1) 6
        (Tree.inheritance a) := by
  refine (within_branch rfl ..).trans ?_
  simp only [Tree.spaced, List.cons_append, List.nil_append, withinAll, within_leaf,
    List.append_nil]
  rfl

theorem within_apply (f x : Tree) : within above start index (Tree.apply f x) =
    within (aboveParts above start index (Tree.apply f x)) start 0 (Tree.paren f) ++
      within (aboveParts above start index (Tree.apply f x))
        (start + (Tree.paren f).width + 1) 2 (Tree.paren x) := by
  refine (within_branch rfl ..).trans ?_
  simp only [Tree.spaced, List.nil_append, withinAll, within_leaf, List.append_nil]
  rfl

theorem withinAll_default (t : Tree) : withinAll above start index (Tree.default t) =
    within above (start + 4) (index + 3) (Tree.paren t) := by
  simp only [Tree.default, Tree.spaced, List.cons_append, List.nil_append, withinAll, within_leaf,
    List.append_nil]
  rfl

theorem withinAll_items_cons (t : Tree) (ts us : List Tree) :
    withinAll above start index (Tree.items (t :: ts) ++ us) =
      within above (start + 1) (index + 1) (Tree.paren t) ++
        withinAll above (start + 1 + (Tree.paren t).width) (index + 2) (Tree.items ts ++ us) := rfl

end Usage

namespace Host

open Binding AttributePath

theorem named_letIn_laid (name : String) (v : Tree) {kind : Kind} (hk : kind.isExpr = true)
    (ts : List Tree) : Named (bindings ⟨ofTree above start index
      (Tree.letIn (Attribute.tree name) v (.branch kind ts))⟩) [name] :=
  named_letIn rfl (nodes_laid ..) rfl hk
    (named_definition rfl (nodes_laid ..) rfl (nodes_laid ..) (names_laid ..))

theorem named_recSet_laid (name other : String) (v : Tree) :
    Named (bindings ⟨ofTree above start index
      (Tree.recSet (Attribute.tree name) v (Attribute.tree other))⟩) [name, other] :=
  named_recSet rfl (nodes_laid ..) rfl rfl
    (named_definition rfl (nodes_laid ..) rfl (nodes_laid ..) (names_laid ..))
    (named_inheritance rfl (nodes_laid ..) rfl (nodes_laid ..) (names_laid ..))

variable {name other : String} (hn : Scan.keyword? name.toList = none)
  (ho : Scan.keyword? other.toList = none)

include hn

theorem named_nameLambda_laid (b : Tree) : Named (bindings ⟨ofTree above start index
    (Tree.nameLambda (Token.word name) b)⟩) [name] :=
  named_nameLambda rfl (nodes_laid ..) rfl (name?_laid _ _ _ _ hn)

include ho

theorem named_patternLambda_laid (v b : Tree) : Named (bindings ⟨ofTree above start index
    (Tree.patternLambda (Token.word name) (Token.word other) v b)⟩) [name, other] :=
  named_patternLambda rfl (nodes_laid ..) rfl (nodes_laid ..) rfl rfl rfl rfl
    (name?_laid _ _ _ _ hn) (name?_laid _ _ _ _ ho)

end Host

namespace Syntax.WithIn

theorem body?_laid (v : Tree) {kind : Kind} (hk : kind.isExpr = true) (ts : List Tree) :
    body? (ofTree above start index (Tree.withIn v (.branch kind ts))) =
      some (ofTree (aboveParts above start index (Tree.withIn v (.branch kind ts)))
        (start + 5 + (Tree.paren v).width + 2) 5 (.branch kind ts)) := by
  rw [body?, exprAfter?, ofTree, elements_laid]
  exact List.find?_cons_of_pos hk

end Syntax.WithIn

end NixScope
