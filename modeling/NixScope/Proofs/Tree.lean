import NixScope.Syntax.Node

namespace NixScope

namespace Rose

variable {α β γ δ : Type}

@[elab_as_elim]
theorem induct {motive : Rose α β → Prop} (leaf : ∀ a, motive (leaf a))
    (branch : ∀ b ts, (∀ t ∈ ts, motive t) → motive (branch b ts)) : ∀ t, motive t
  | .leaf a => leaf a
  | .branch b ts => branch b ts fun t _ => induct leaf branch t

theorem leavesOf_eq (ts : List (Rose α β)) : leavesOf ts = ts.flatMap leaves := by
  induction ts with
  | nil => rfl
  | cons t ts ih => rw [leavesOf, ih, List.flatMap_cons]

theorem leavesOf_append (ts us : List (Rose α β)) :
    leavesOf (ts ++ us) = leavesOf ts ++ leavesOf us := by
  simp only [leavesOf_eq, List.flatMap_append]

theorem mapAll_eq (f : α → γ) (g : β → δ) (ts : List (Rose α β)) :
    mapAll f g ts = ts.map (map f g) := by
  induction ts with
  | nil => rfl
  | cons t ts ih => rw [mapAll, ih, List.map_cons]

end Rose

namespace Syntax

namespace PlacedTree

theorem walkAll_eq (above : List Spot) (ts : List PlacedTree) :
    walkAll above ts = ts.flatMap (walk above) := by
  induction ts with
  | nil => rfl
  | cons t ts ih => rw [walkAll, ih, List.flatMap_cons]

@[simp] theorem tree_leaf (t : PlacedToken) : tree (.leaf t) = .leaf t.token := rfl

@[simp] theorem tree_branch (m : Mark) (ts : List PlacedTree) :
    tree (.branch m ts) = .branch m.kind (ts.map tree) := by
  simp [tree, Rose.map, Rose.mapAll_eq]

end PlacedTree

theorem Token.widthOf_append (ts us : List Token) :
    widthOf (ts ++ us) = widthOf ts + widthOf us := by
  induction ts with
  | nil => rw [List.nil_append, widthOf, Nat.zero_add]
  | cons t ts ih => rw [List.cons_append, widthOf, widthOf, ih, Nat.add_assoc]

namespace Tree

/-- Width in bytes of trees one behind the other. -/
def widthOf (ts : List Tree) : Nat := Token.widthOf (Rose.leavesOf ts)

theorem widthOf_cons (t : Tree) (ts : List Tree) : widthOf (t :: ts) = t.width + widthOf ts := by
  rw [widthOf, Rose.leavesOf, Token.widthOf_append]
  rfl

theorem width_leaf (t : Token) : width (.leaf t) = t.width := rfl

theorem width_branch (k : Kind) (ts : List Tree) : width (.branch k ts) = widthOf ts := rfl

/-- Every node of the tree satisfies `P` as its kind and children. -/
inductive Everywhere (P : Kind → List Tree → Prop) : Tree → Prop
  | leaf (t : Token) : Everywhere P (.leaf t)
  | branch {k : Kind} {ts : List Tree} (h : P k ts) (hs : ∀ t ∈ ts, Everywhere P t) :
      Everywhere P (.branch k ts)

/-- Every node of the tree satisfies `P` as its kind, its children and the tokens behind it in the
file; `after` are those behind the tree. -/
inductive Within (P : Kind → List Tree → List Token → Prop) : Tree → List Token → Prop
  | leaf (t : Token) (after : List Token) : Within P (.leaf t) after
  | branch {k : Kind} {ts : List Tree} {after : List Token} (h : P k ts after)
      (hs : ∀ us t vs, ts = us ++ t :: vs → Within P t (Rose.leavesOf vs ++ after)) :
      Within P (.branch k ts) after

def AllWithin (P : Kind → List Tree → List Token → Prop) (ts : List Tree) (after : List Token) :
    Prop :=
  ∀ us t vs, ts = us ++ t :: vs → t.Within P (Rose.leavesOf vs ++ after)

theorem Within.mono {P Q : Kind → List Tree → List Token → Prop}
    (h : ∀ k ts after, P k ts after → Q k ts after) {t : Tree} {after : List Token}
    (ht : t.Within P after) : t.Within Q after := by
  induction ht with
  | leaf t after => exact .leaf t after
  | branch hp hs ih => exact .branch (h _ _ _ hp) ih

theorem Within.everywhere {P : Kind → List Tree → Prop} {t : Tree} {after : List Token}
    (h : t.Within (fun k ts _ => P k ts) after) : t.Everywhere P := by
  induction h with
  | leaf t after => exact .leaf t
  | branch hp hs ih =>
    refine .branch hp fun t ht => ?_
    obtain ⟨us, vs, he⟩ := List.append_of_mem ht
    exact ih us t vs he

theorem AllWithin.singleton {P : Kind → List Tree → List Token → Prop} {t : Tree}
    {after : List Token} (h : t.Within P after) : AllWithin P [t] after := by
  intro us u vs he
  cases us with
  | nil =>
    obtain ⟨rfl, rfl⟩ := List.cons.inj he
    exact h
  | cons v us => simp at he

theorem AllWithin.append {P : Kind → List Tree → List Token → Prop} {ts us : List Tree}
    {after : List Token} (h : AllWithin P ts (Rose.leavesOf us ++ after))
    (h' : AllWithin P us after) : AllWithin P (ts ++ us) after := by
  intro as t bs he
  obtain ⟨cs, hl, hr⟩ | ⟨cs, hl, hr⟩ := List.append_eq_append_iff.mp he
  · exact h' cs t bs hr
  · cases cs with
    | nil =>
      rw [List.nil_append] at hr
      exact h' [] t bs hr.symm
    | cons c cs =>
      rw [List.cons_append, List.cons.injEq] at hr
      obtain ⟨rfl, rfl⟩ := hr
      rw [Rose.leavesOf_append, List.append_assoc]
      exact h as t cs hl

theorem AllWithin.left {P : Kind → List Tree → List Token → Prop} {ts us : List Tree}
    {after : List Token} (h : AllWithin P (ts ++ us) after) :
    AllWithin P ts (Rose.leavesOf us ++ after) := by
  rintro as t bs rfl
  have ht := h as t (bs ++ us) (by simp)
  rwa [Rose.leavesOf_append, List.append_assoc] at ht

def isSolid : Tree → Bool
  | .leaf t => !t.isTrivia
  | .branch _ _ => true

def solid (ts : List Tree) : List Tree := ts.filter isSolid

@[simp] theorem solid_append (ts us : List Tree) : solid (ts ++ us) = solid ts ++ solid us :=
  List.filter_append ..

theorem tree_placeAll_of {ts : List Tree}
    (h : ∀ t ∈ ts, ∀ start index, PlacedTree.tree (place start index t) = t) (start index : Nat) :
    (placeAll start index ts).1.map PlacedTree.tree = ts := by
  induction ts generalizing start index with
  | nil => rfl
  | cons t ts ih =>
    simp only [placeAll, List.map_cons, h t (by simp)]
    rw [ih fun u hu => h u (by simp [hu])]

theorem tree_place (start index : Nat) (t : Tree) : PlacedTree.tree (place start index t) = t := by
  induction t using Rose.induct generalizing start index with
  | leaf t => rfl
  | branch k ts ih =>
    simp only [place, PlacedTree.tree_branch, tree_placeAll_of ih]

theorem tree_placeAll (start index : Nat) (ts : List Tree) :
    (placeAll start index ts).1.map PlacedTree.tree = ts :=
  tree_placeAll_of (fun t _ start index => tree_place start index t) start index

end Tree

def Spot.trees (s : Spot) : List Tree := s.children.map PlacedTree.tree

theorem Spot.tree_eq (s : Spot) : s.tree = .branch s.kind s.trees :=
  PlacedTree.tree_branch s.mark s.children

theorem PlacedTree.everywhere_of_mem_walk {P : Kind → List Tree → Prop} {t : PlacedTree}
    (h : t.tree.Everywhere P) {above : List Spot} {n : Node} (hn : .node n ∈ walk above t) :
    n.tree.Everywhere P := by
  induction t using Rose.induct generalizing above with
  | leaf t => simp [walk] at hn
  | branch m ts ih =>
    rw [walk, List.mem_cons] at hn
    obtain hn | hn := hn
    · cases hn
      exact h
    · rw [walkAll_eq, List.mem_flatMap] at hn
      obtain ⟨u, hu, hn⟩ := hn
      rw [tree_branch] at h
      cases h with
      | branch hp hs => exact ih u hu (hs u.tree (List.mem_map_of_mem hu)) hn

namespace Node

theorem mem_descendants {n m : Node} :
    m ∈ n.descendants ↔
      m = n ∨ ∃ t ∈ n.children, .node m ∈ PlacedTree.walk (n.toSpot :: n.above) t := by
  have hw : m ∈ n.descendants ↔ .node m ∈ n.walk := by
    simp only [descendants, List.mem_filterMap]
    constructor
    · rintro ⟨e, he, hm⟩
      cases e with
      | node k =>
        cases hm
        exact he
      | leaf l => cases hm
    · exact fun hm => ⟨.node m, hm, rfl⟩
  rw [hw, walk, List.mem_cons, PlacedTree.walkAll_eq, List.mem_flatMap, Element.node.injEq]

theorem of_everywhere {P : Kind → List Tree → Prop} {n : Node} (h : n.tree.Everywhere P) :
    P n.kind n.trees := by
  rw [Spot.tree_eq] at h
  cases h with
  | branch hp hs => exact hp

theorem everywhere_of_descendant {P : Kind → List Tree → Prop} {n m : Node}
    (h : n.tree.Everywhere P) (hm : m ∈ n.descendants) : m.tree.Everywhere P := by
  obtain rfl | ⟨t, ht, hw⟩ := mem_descendants.mp hm
  · exact h
  · rw [Spot.tree_eq] at h
    cases h with
    | branch hp hs =>
      exact PlacedTree.everywhere_of_mem_walk (hs t.tree (List.mem_map_of_mem ht)) hw

theorem everywhere_of_mem_descendants {P : Kind → List Tree → Prop} {n m : Node}
    (h : n.tree.Everywhere P) (hm : m ∈ n.descendants) : P m.kind m.trees :=
  of_everywhere (everywhere_of_descendant h hm)

theorem tree_root (kind : Kind) (content : List Tree) :
    (root kind content).tree = .branch kind content := by
  rw [Spot.tree_eq]
  exact congrArg _ (Tree.tree_placeAll 0 0 content)

end Node

end Syntax

end NixScope
