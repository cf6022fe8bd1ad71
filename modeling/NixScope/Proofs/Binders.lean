import NixScope.Proofs.PathText
import NixScope.Proofs.Phrases
import NixScope.Proofs.Resolution
import NixScope.Proofs.Scoping

namespace NixScope

open Syntax Node

theorem Syntax.Spot.same_eq_false {s t : Spot} (h : s.pointer ≠ t.pointer) : s.same t = false := by
  have hne : s ≠ t := fun he => h (congrArg Spot.pointer he)
  simp [Spot.same, hne, h]

def Binding.Named (bs : List Binding) (names : List String) : Prop :=
  bs.map (·.path) = names.map fun name => .single (.static name)

namespace Binding

theorem named_append {bs cs : List Binding} {xs ys : List String} (h : Named bs xs)
    (h' : Named cs ys) : Named (bs ++ cs) (xs ++ ys) := by
  rw [Named, List.map_append, h, h', List.map_append]

variable {n m a : Node} {name : String}

theorem named_definition (hk : n.kind = .attrPathValue) {more : List Node} (hn : n.nodes = m :: more)
    (hm : m.kind = .attrPath) (ha : m.nodes = [a]) (h : AttributePath.Names a name) :
    Named (ofEntry n) [name] := by
  have hp : AttrPathValue.path? n = some m := by simp [AttrPathValue.path?, child?, hn, hm]
  have hs : AttrPath.attrs m = [a] := by simp [AttrPath.attrs, childrenOf, ha, h.kind]
  simp [Named, ofEntry, hk, hp, hs, ofSegments, h.name]

theorem named_inheritance (hk : n.kind = .inherit) (hn : n.nodes = [m])
    (hm : m.kind = .inheritedName) (ha : m.nodes = [a]) (h : AttributePath.Names a name) :
    Named (ofEntry n) [name] := by
  have hs : Inherit.names n = [m] := by simp [Inherit.names, childrenOf, hn, hm]
  have hp : InheritedName.attr? m = some a := by simp [InheritedName.attr?, child?, ha, h.kind]
  simp [Named, ofEntry, hk, hs, ofInherited?, hp, h.name]

theorem named_param (kind : DeclarationKind) (hn : Var.name? n = some name) :
    Named (ofParam? kind n).toList [name] := by
  simp [Named, ofParam?, hn]

end Binding

namespace Host

theorem declares_of_named {h : Host} {names : List String} (hb : Binding.Named h.bindings names)
    (x : String) : h.declares (.single (.static x)) = names.contains x := by
  have hd : h.declares (.single (.static x)) =
      (h.bindings.map (·.path)).any (· == .single (.static x)) := by
    rw [List.any_map]
    rfl
  rw [hd, hb, List.any_map, List.contains_eq_any_beq]
  congr 1
  funext name
  rw [Bool.eq_iff_iff, Function.comp_apply, beq_iff_eq, beq_iff_eq]
  constructor
  · intro h
    cases h
    rfl
  · rintro rfl
    rfl

open Binding

variable {n m c d : Node} {name other : String}

theorem named_letIn (hk : n.kind = .letIn) (hn : n.nodes = [m, c]) (hm : m.kind = .attrPathValue)
    (hc : c.kind.isExpr = true) (h : Named (ofEntry m) [name]) : Named (bindings ⟨n⟩) [name] := by
  have he : n.entries = [m] := by
    have hd : (c.kind == .attrPathValue || c.kind == .inherit) = false := by
      cases hk : c.kind <;> first | rfl | simp [hk, Kind.isExpr] at hc
    simp [entries, hn, hm, hd]
  simpa [bindings, hk, he] using h

theorem named_recSet (hk : n.kind = .attrSet) (hn : n.nodes = [m, c]) (hm : m.kind = .attrPathValue)
    (hc : c.kind = .inherit) (h : Named (ofEntry m) [name]) (h' : Named (ofEntry c) [other]) :
    Named (bindings ⟨n⟩) [name, other] := by
  have he : n.entries = [m, c] := by simp [entries, hn, hm, hc]
  have hb := named_append h h'
  simpa [bindings, hk, he] using hb

theorem named_nameLambda (hk : n.kind = .lambda) {more : List Node} (hn : n.nodes = m :: more)
    (hm : m.kind = .paramName) (h : Var.name? m = some name) : Named (bindings ⟨n⟩) [name] := by
  have hp : Lambda.param? n = some m := by simp [Lambda.param?, hn, hm]
  simpa [bindings, hk, hp, ofParameter, hm] using named_param .parameter h

theorem named_patternLambda (hk : n.kind = .lambda) {more : List Node} (hn : n.nodes = m :: more)
    (hm : m.kind = .pattern) (he : m.nodes = [c, d]) (hc : c.kind = .patternEntry)
    (hd : d.kind = .patternEntry) {a b : Node} (ha : Pattern.name? c = some a)
    (hb : Pattern.name? d = some b) (h : Var.name? a = some name) (h' : Var.name? b = some other) :
    Named (bindings ⟨n⟩) [name, other] := by
  have hp : Lambda.param? n = some m := by simp [Lambda.param?, hn, hm]
  have hbinds : Pattern.binds m = [] := by simp [Pattern.binds, childrenOf, he, hc, hd]
  have hentries : Pattern.entries m = [c, d] := by simp [Pattern.entries, childrenOf, he, hc, hd]
  simp [Named, bindings, hk, hp, ofParameter, hm, hbinds, hentries, ha, hb, ofParam?, h, h']

end Host

structure Binder where
  host : Pointer
  names : List String

/-- What is around a place: the binders, innermost first, and whether the place is in the body of a
`with`. -/
structure Context where
  binders : List Binder
  inWith : Bool

namespace Context

/-- The innermost binder of a name wins. Without one, a `with` may provide the name, or it is a
builtin or nothing. -/
def resolve (c : Context) (name : String) : List Symbol :=
  match c.binders.find? (·.names.contains name) with
  | some b => [.declared b.host (.single (.static name))]
  | none =>
    if c.inWith then [.adHoc (.static name)]
    else ((Builtin.global? name).map Symbol.builtin).toList

def bind (c : Context) (host : Pointer) (names : List String) : Context :=
  { c with binders := ⟨host, names⟩ :: c.binders }

def enterWith (c : Context) : Context := { c with inWith := true }

def host? (ns : List Node) (name : String) : Option Pointer :=
  ((ns.filter Environment.isScope).find? fun n =>
    (Host.mk n).declares (.single (.static name))).map (·.pointer)

structure Fits (c : Context) (n : Node) : Prop where
  scopes : ∀ name, host? n.outer name = (c.binders.find? (·.names.contains name)).map Binder.host
  withs : Scope.crossesWith n.ancestors = c.inWith

variable {c : Context} {n m : Node} {name : String}

theorem host?_cons_neg (h : Environment.isScope n = false) (ns : List Node) (name : String) :
    host? (n :: ns) name = host? ns name := by
  rw [host?, List.filter_cons_of_neg (by simp [h]), ← host?]

/-- What a name means at a node, by the scopes that the node sees. -/
theorem resolveName_of_around {ns : List Node} (hn : Scope.around n = ns)
    (hs : host? ns name = (c.binders.find? (·.names.contains name)).map Binder.host)
    (hw : Scope.crossesWith n.ancestors = c.inWith) :
    Scope.resolveName n (.static name) = c.resolve name := by
  have hf : (Scope.hosts n).find? (·.declares (.single (.static name))) =
      ((ns.filter Environment.isScope).find? fun n =>
        (Host.mk n).declares (.single (.static name))).map Host.mk := by
    rw [Scope.hosts, hn, Environment.filter_isScope, List.find?_map]
    rfl
  rw [Scope.resolveName, hf, hw, resolve]
  rw [host?] at hs
  cases hb : c.binders.find? (·.names.contains name) with
  | some b =>
    rw [hb, Option.map_some] at hs
    obtain ⟨m, hm, hp⟩ := Option.map_eq_some_iff.mp hs
    rw [hm]
    dsimp only [Option.map_some]
    rw [hp]
  | none =>
    rw [hb, Option.map_none, Option.map_eq_none_iff] at hs
    rw [hs]
    rfl

theorem Fits.resolveName (h : Fits c n) (hk : n.kind ≠ .inheritedName) :
    Scope.resolveName n (.static name) = c.resolve name := by
  refine resolveName_of_around ?_ (h.scopes name) h.withs
  rw [Scope.around]
  split
  · rename_i he
    rw [if_neg hk, he]
  · rfl

theorem crossesWith_ancestors (ho : m.outer = n :: n.outer) :
    Scope.crossesWith m.ancestors =
      (Scope.isBodyOf m n || Scope.crossesWith n.ancestors) := by
  rw [ancestors, ho, Scope.crossesWith, ancestors]

theorem isBodyOf_of_kind (hk : n.kind ≠ .withIn) (m : Node) : Scope.isBodyOf m n = false := by
  simp [Scope.isBodyOf, hk]

theorem Fits.inner (h : Fits c n) (ho : m.outer = n :: n.outer)
    (hs : Environment.isScope n = false) (hb : Scope.isBodyOf m n = false) : Fits c m where
  scopes name := by rw [ho, host?_cons_neg hs, h.scopes]
  withs := by rw [crossesWith_ancestors ho, hb, h.withs, Bool.false_or]

theorem Fits.bind (h : Fits c n) (ho : m.outer = n :: n.outer)
    (hs : Environment.isScope n = true) (hk : n.kind ≠ .withIn) {names : List String}
    (hb : Binding.Named (Host.bindings ⟨n⟩) names) : Fits (c.bind n.pointer names) m where
  scopes name := by
    rw [ho, host?, List.filter_cons_of_pos hs, Context.bind, List.find?_cons, List.find?_cons,
      Host.declares_of_named hb]
    cases names.contains name with
    | true => rfl
    | false => exact h.scopes name
  withs := by
    rw [crossesWith_ancestors ho, isBodyOf_of_kind hk, h.withs]
    rfl

theorem Fits.enterWith (h : Fits c n) (ho : m.outer = n :: n.outer)
    (hk : n.kind = .withIn) (hb : WithIn.body? n = some m) : Fits c.enterWith m where
  scopes name := by
    have hs : Environment.isScope n = false := by simp [Environment.isScope, hk]
    rw [ho, host?_cons_neg hs, h.scopes]
    rfl
  withs := by
    have hbody : Scope.isBodyOf m n = true := by simp [Scope.isBodyOf, hk, hb, Spot.same]
    rw [crossesWith_ancestors ho, hbody]
    rfl

/-- An inherited name does not see the set that it is inherited into. -/
theorem Fits.inherited {clause : Node} (h : Fits c n) (hc : clause.outer = n :: n.outer)
    (hm : m.outer = clause :: clause.outer) (hk : m.kind = .inheritedName)
    (hck : clause.kind = .inherit) (hnk : n.kind ≠ .withIn) :
    Scope.resolveName m (.static name) = c.resolve name := by
  have hs : Environment.isScope clause = false := by simp [Environment.isScope, hck]
  have ha : Scope.around m = clause :: n.outer := by
    rw [Scope.around, hm, hc]
    exact if_pos hk
  refine resolveName_of_around ha ?_ ?_
  · rw [host?_cons_neg hs, h.scopes]
  · rw [crossesWith_ancestors hm, crossesWith_ancestors hc, isBodyOf_of_kind (by simp [hck]),
      isBodyOf_of_kind hnk, h.withs]
    rfl

end Context

end NixScope
