import NixScope.Names.Scope
import NixScope.Proofs.Elements
import NixScope.Syntax.Parse

namespace NixScope

open Syntax

/-- The list leads from the first node down to the second, each of its nodes in the one before. -/
inductive Syntax.Node.Walk : Node → List Node → Node → Prop
  | here (n : Node) : Walk n [n] n
  | down {n c e : Node} {path : List Node} (hc : c ∈ n.nodes) (h : Walk c path e) :
      Walk n (n :: path) e

/-- What a walk has gathered: the nodes whose bindings are in scope, innermost first, and how many
`with`s it has entered through their bodies. -/
structure Environment where
  scopes : List Node
  withs : Nat

namespace Environment

def isScope (n : Node) : Bool :=
  n.kind == .lambda || n.kind == .letIn || n.kind == .attrSet && AttrSet.isRec n

def enter (env : Environment) (hidden : Bool) (outer next : Node) : Environment where
  scopes := if isScope outer && !hidden then outer :: env.scopes else env.scopes
  withs := if Scope.isBodyOf next outer then env.withs + 1 else env.withs

/-- Goes along a path that ends at `element`. If that is an inherited name, it does not see the node
around its clause, which is the last but two on the path. -/
def along (env : Environment) (element : Node) : List Node → Environment
  | outer :: next :: rest =>
    (env.enter (element.kind == .inheritedName && rest.length == 1) outer next).along element
      (next :: rest)
  | _ => env

def builtins : Attribute → List Symbol
  | .static name => ((Builtin.global? name).map Symbol.builtin).toList
  | .dynamic _ => []

/-- The innermost declaration wins; without one, a `with` may provide the name, or it is a
builtin. -/
def resolve (env : Environment) (a : Attribute) : List Symbol :=
  match env.scopes.find? fun n => (Host.mk n).declares (.single a) with
  | some n => [.declared n.pointer (.single a)]
  | none =>
    if 0 < env.withs then [.adHoc a] else builtins a

end Environment

namespace Syntax.Node

theorem Walk.ancestors_eq {n e : Node} {path : List Node} (h : Walk n path e) :
    e.ancestors = path.reverse ++ n.outer := by
  induction h with
  | here n => rfl
  | @down n c e path hc h ih =>
    rw [ih, outer, above_of_mem_nodes hc, trail, List.reverse_cons, List.append_assoc]
    rfl

theorem exists_walk_of_mem {t : PlacedTree} {above : List Spot} {e : Node}
    (he : e ∈ PlacedTree.nodes above t) :
    ∃ n path, n.placed = t ∧ n.above = above ∧ Walk n path e := by
  induction t using Rose.induct generalizing above with
  | leaf t => simp at he
  | branch m ts ih =>
    rw [PlacedTree.nodes_branch, List.mem_cons] at he
    obtain rfl | he := he
    · exact ⟨_, _, rfl, rfl, .here _⟩
    · obtain ⟨t, ht, he⟩ := List.mem_flatMap.mp he
      obtain ⟨c, path, hc, ha, hw⟩ := ih t ht he
      have hm : c ∈ (⟨⟨m, ts⟩, above⟩ : Node).nodes := by
        refine List.mem_filterMap.mpr ⟨_, List.mem_map_of_mem ht, ?_⟩
        rw [← hc, ← ha]
        rfl
      exact ⟨_, _, rfl, rfl, .down hm hw⟩

theorem exists_walk {n e : Node} (h : e ∈ n.descendants) : ∃ path, Walk n path e := by
  rw [PlacedTree.descendants_eq] at h
  obtain ⟨⟨⟨m, ts⟩, above⟩, path, hm, ha, hw⟩ := exists_walk_of_mem h
  obtain ⟨⟨m', ts'⟩, above'⟩ := n
  cases hm
  cases ha
  exact ⟨path, hw⟩

end Syntax.Node

namespace Scope

theorem crossesWith_append (path : List Node) (inner outer : Node) :
    crossesWith (path ++ [inner, outer]) =
      (crossesWith (path ++ [inner]) || isBodyOf inner outer) := by
  induction path with
  | nil => simp [crossesWith]
  | cons n path ih =>
    cases path with
    | nil => simp [crossesWith]
    | cons m path =>
      simp only [List.cons_append] at ih ⊢
      rw [crossesWith, crossesWith, ih, Bool.or_assoc]

end Scope

namespace Environment

open Scope

/-- The nodes that a walk to `element` may push, in the order of the walk. -/
def passed (element : Node) : List Node → List Node
  | outer :: next :: rest =>
    if element.kind == .inheritedName && rest.length == 1 then passed element (next :: rest)
    else outer :: passed element (next :: rest)
  | _ => []

theorem scopes_along (env : Environment) (element : Node) (path : List Node) :
    (env.along element path).scopes =
      ((passed element path).filter isScope).reverse ++ env.scopes := by
  induction path generalizing env with
  | nil => rfl
  | cons outer path ih =>
    cases path with
    | nil => rfl
    | cons next rest =>
      rw [along, ih, passed, enter]
      cases element.kind == .inheritedName && rest.length == 1 with
      | true => simp
      | false => cases hs : isScope outer <;> simp [hs]

theorem withs_along (env : Environment) (element : Node) (path : List Node) :
    0 < (env.along element path).withs ↔ 0 < env.withs ∨ crossesWith path.reverse = true := by
  induction path generalizing env with
  | nil => simp [along, crossesWith]
  | cons outer path ih =>
    cases path with
    | nil => simp [along, crossesWith]
    | cons next rest =>
      have hr : (outer :: next :: rest).reverse = rest.reverse ++ [next, outer] := by simp
      rw [along, ih, enter, hr, crossesWith_append, List.reverse_cons]
      cases isBodyOf next outer <;> simp

theorem passed_append (element target clause : Node) (path : List Node) :
    passed element (path ++ [target, clause, element]) =
      path ++ if element.kind = .inheritedName then [clause] else [target, clause] := by
  induction path with
  | nil => simp [passed]
  | cons n path ih =>
    rw [List.cons_append, List.cons_append, ← ih]
    cases path with
    | nil => simp [passed]
    | cons m path => simp [passed]

theorem reverse_passed {element : Node} {path : List Node} (h : element.ancestors = path.reverse) :
    (passed element path).reverse = around element := by
  have hp : path = element.outer.reverse ++ [element] := by
    rw [← List.reverse_reverse path, ← h, Node.ancestors, List.reverse_cons]
  rw [hp, around]
  match element.outer with
  | [] => rfl
  | [clause] => simp [passed]
  | clause :: target :: outer =>
    have hr : (clause :: target :: outer).reverse ++ [element] =
        outer.reverse ++ [target, clause, element] := by simp
    rw [hr, passed_append]
    split <;> simp

theorem filter_isScope (ns : List Node) :
    (ns.filterMap Host.of?).filter Host.isScope = (ns.filter isScope).map Host.mk := by
  induction ns with
  | nil => rfl
  | cons n ns ih =>
    by_cases hk : n.kind = .lambda ∨ n.kind = .letIn ∨ n.kind = .attrSet
    · have ho : Host.of? n = some ⟨n⟩ := if_pos hk
      have hs : isScope n = Host.isScope ⟨n⟩ := by
        obtain hk | hk | hk := hk <;> simp [isScope, Host.isScope, hk]
      rw [List.filterMap_cons_some ho, List.filter_cons, List.filter_cons, hs, ih]
      cases Host.isScope ⟨n⟩ <;> rfl
    · have ho : Host.of? n = none := if_neg hk
      have hs : isScope n = false := by
        simp only [not_or] at hk
        simp [isScope, hk]
      rw [List.filterMap_cons_none ho, List.filter_cons, hs, ih]
      rfl

/-- What is looked up at the end of a walk is found by the search from there. -/
theorem resolve_along {element : Node} {path : List Node} (h : element.ancestors = path.reverse)
    (a : Attribute) : resolveName element a = (along ⟨[], 0⟩ element path).resolve a := by
  have hs : (along ⟨[], 0⟩ element path).scopes = (around element).filter isScope := by
    rw [scopes_along, List.append_nil, ← List.filter_reverse, reverse_passed h]
  have hw := withs_along ⟨[], 0⟩ element path
  rw [← h] at hw
  simp only [Nat.lt_irrefl, false_or] at hw
  have hf : (hosts element).find? (·.declares (.single a)) =
      (((around element).filter isScope).find? fun n => (Host.mk n).declares (.single a)).map
        Host.mk := by
    rw [hosts, filter_isScope, List.find?_map]
    rfl
  rw [resolveName, hf, resolve, hs]
  cases ((around element).filter isScope).find? fun n => (Host.mk n).declares (.single a) with
  | some n => rfl
  | none =>
    simp only [Option.map_none, hw]
    split
    · rfl
    · cases a <;> rfl

theorem length_resolve_le (env : Environment) (a : Attribute) : (env.resolve a).length ≤ 1 := by
  rw [resolve]
  split
  · exact Nat.le_refl _
  split
  · exact Nat.le_refl _
  · cases a with
    | static name =>
      rw [builtins]
      cases (Builtin.global? name).map Symbol.builtin <;> simp
    | dynamic p => exact Nat.zero_le _

end Environment

/-- For every node of every tree there is a walk from the root, and the candidates for a name at the
node are what the environment of the walk says, which is one symbol at most. -/
theorem resolveName_eq_resolve (kind : Kind) (content : List Tree) (element : Node)
    (h : element ∈ (Node.root kind content).descendants) (a : Attribute) :
    (∃ path, Node.Walk (Node.root kind content) path element) ∧
      (∀ path, Node.Walk (Node.root kind content) path element →
        Scope.resolveName element a =
          (Environment.along ⟨[], 0⟩ element path).resolve a) ∧
      (Scope.resolveName element a).length ≤ 1 := by
  have hall : ∀ path, Node.Walk (Node.root kind content) path element →
      Scope.resolveName element a = (Environment.along ⟨[], 0⟩ element path).resolve a := by
    intro path hp
    have ha := hp.ancestors_eq
    rw [Node.outer, Node.root, Node.trail, List.append_nil] at ha
    exact Environment.resolve_along ha a
  obtain ⟨path, hp⟩ := Node.exists_walk h
  refine ⟨⟨path, hp⟩, hall, ?_⟩
  rw [hall path hp]
  exact Environment.length_resolve_le _ a

theorem resolveName_eq_resolve_inherit :
    ∃ element ∈ (Node.root .root (parse "let x = 1; in let inherit x; in x").content).descendants,
      element.kind = .inheritedName ∧ ∃ path,
        Node.Walk (Node.root .root (parse "let x = 1; in let inherit x; in x").content) path
          element ∧
        Scope.resolveName element (.static "x") =
          (Environment.along ⟨[], 0⟩ element path).resolve (.static "x") := by
  have hs : ((Node.root .root
      (parse "let x = 1; in let inherit x; in x").content).descendants.find?
        (·.kind == .inheritedName)).isSome = true := by
    decide +kernel
  obtain ⟨element, he⟩ := Option.isSome_iff_exists.mp hs
  have hm := List.mem_of_find?_eq_some he
  have hk : element.kind = .inheritedName := by simpa using List.find?_some he
  obtain ⟨⟨path, hp⟩, hall, -⟩ := resolveName_eq_resolve .root
    (parse "let x = 1; in let inherit x; in x").content element hm (.static "x")
  exact ⟨element, hm, hk, path, hp, hall path hp⟩

end NixScope
