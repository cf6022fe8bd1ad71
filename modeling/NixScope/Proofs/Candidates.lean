import NixScope.Names.Scope
import NixScope.Proofs.Rooted

namespace NixScope

open Syntax

namespace Builtin

theorem name_of_ofName? {name : String} {b : Builtin} (h : ofName? name = some b) :
    b.name = name := by
  obtain ⟨-, h⟩ := Option.ite_none_right_eq_some.mp h
  cases h
  rfl

theorem eq_append_of_alias? {name rest : String} (h : alias? name = some rest) :
    name = "__" ++ rest := by
  rw [alias?] at h
  split at h
  · rename_i cs hcs
    cases h
    rw [← String.toList_inj, String.toList_append, hcs]
    simp
  · cases h

theorem name_of_global? {name : String} {b : Builtin} (h : global? name = some b) :
    name = b.name ∨ name = "__" ++ b.name := by
  rw [global?] at h
  split at h
  · cases h
    left
    assumption
  split at h
  · exact .inl (name_of_ofName? h).symm
  · obtain ⟨rest, hr, h⟩ := Option.bind_eq_some_iff.mp h
    rw [name_of_ofName? h]
    exact .inr (eq_append_of_alias? hr)

end Builtin

namespace AttributePath

@[simp] theorem last_single (a : Attribute) : (single a).last = a := rfl

@[simp] theorem last_child (p : AttributePath) (a : Attribute) : (p.child a).last = a := by
  simp [last, child]

end AttributePath

/-- A binding of the node `host` spells the last segment of its path, `a`, in the node `m`. -/
inductive Names (host m : Node) (a : Attribute) : Prop
  | parameter {name : String} (ha : a = .static name) (hk : m.kind = .paramName)
      (hn : Var.name? m = some name)
  | binding {path entry : Node} (ha : a = .ofNode m) (hm : m ∈ path.nodes) (hk : m.kind = .attr)
      (hp : path ∈ entry.nodes) (hpk : path.kind = .attrPath) (he : entry ∈ host.nodes)
      (hek : entry.kind = .attrPathValue)
  | inherited {name clause : Node} (ha : a = .ofNode m) (hm : m ∈ name.nodes)
      (hk : m.kind = .attr) (hn : name ∈ clause.nodes) (hnk : name.kind = .inheritedName)
      (hc : clause ∈ host.nodes) (hck : clause.kind = .inherit)

namespace Binding

theorem last_ofSegments {value : Option Pointer} {before : Option AttributePath}
    {attrs : List Node} {b : Binding} (h : b ∈ ofSegments value before attrs) :
    ∃ m ∈ attrs, b.declaration.name = m.pointer ∧ b.path.last = .ofNode m := by
  induction attrs generalizing before with
  | nil => cases h
  | cons attr attrs ih =>
    have hl : ((before.map (AttributePath.child · (.ofNode attr))).getD
        (AttributePath.single (.ofNode attr))).last = .ofNode attr := by
      cases before <;> simp
    cases attrs with
    | nil =>
      rw [ofSegments, List.mem_singleton] at h
      subst h
      exact ⟨attr, List.mem_cons_self, rfl, hl⟩
    | cons attr' attrs =>
      simp only [ofSegments] at h
      obtain rfl | h := List.mem_cons.mp h
      · exact ⟨attr, List.mem_cons_self, rfl, hl⟩
      · obtain ⟨m, hm, hb⟩ := ih h
        exact ⟨m, List.mem_cons_of_mem _ hm, hb⟩

end Binding

/-- The host makes the binding under the name that the node `m` spells. -/
inductive Binds (host m : Node) (b : Binding) : Prop
  | parameter (hm : m ∈ host.nodes) (hk : m.kind = .paramName)
      (hb : Binding.ofParam? .parameter m = some b)
  | formal {pattern part : Node} {kind : DeclarationKind} (hp : pattern ∈ host.nodes)
      (hpk : pattern.kind = .pattern) (hpart : part ∈ pattern.nodes)
      (hk : part.kind = .patternBind ∧ kind = .patternBind ∨
        part.kind = .patternEntry ∧ kind = .formal)
      (hm : Pattern.name? part = some m) (hb : Binding.ofParam? kind m = some b)
  | inherited {clause name : Node} (hc : clause ∈ host.nodes) (hck : clause.kind = .inherit)
      (hn : name ∈ clause.nodes) (hnk : name.kind = .inheritedName)
      (hm : InheritedName.attr? name = some m)
      (hb : b = ⟨.single (.ofNode m), .inherited, m.pointer, none⟩)
  | entry {entry path : Node} (he : entry ∈ host.nodes) (hek : entry.kind = .attrPathValue)
      (hp : AttrPathValue.path? entry = some path) (hm : m ∈ AttrPath.attrs path)
      (hb : b ∈ Binding.ofSegments ((AttrPathValue.value? entry).map (·.pointer)) none
        (AttrPath.attrs path))
      (hname : b.declaration.name = m.pointer)

theorem exists_binds_ofParameter {host param : Node} {b : Binding} (hp : param ∈ host.nodes)
    (hk : param.kind = .paramName ∨ param.kind = .pattern) (hb : b ∈ Binding.ofParameter param) :
    ∃ m, Binds host m b := by
  rw [Binding.ofParameter] at hb
  split at hb
  · rename_i hpk
    exact ⟨param, .parameter hp hpk (Option.mem_toList.mp hb)⟩
  · rename_i hpk
    have hpk := hk.resolve_left hpk
    obtain hb | hb := List.mem_append.mp hb
    · obtain ⟨part, hm, hb⟩ := List.mem_filterMap.mp hb
      obtain ⟨m, hname, hb⟩ := Option.bind_eq_some_iff.mp hb
      obtain ⟨hm, hmk⟩ := Node.mem_nodes_of_childrenOf hm
      exact ⟨m, .formal hp hpk hm (.inl ⟨hmk, rfl⟩) hname hb⟩
    · obtain ⟨part, hm, hb⟩ := List.mem_filterMap.mp hb
      obtain ⟨m, hname, hb⟩ := Option.bind_eq_some_iff.mp hb
      obtain ⟨hm, hmk⟩ := Node.mem_nodes_of_childrenOf hm
      exact ⟨m, .formal hp hpk hm (.inr ⟨hmk, rfl⟩) hname hb⟩

theorem exists_binds_ofEntry {host entry : Node} {b : Binding} (he : entry ∈ host.entries)
    (hb : b ∈ Binding.ofEntry entry) : ∃ m, Binds host m b := by
  obtain ⟨he, hk⟩ := List.mem_filter.mp he
  rw [Binding.ofEntry] at hb
  split at hb
  · rename_i hi
    obtain ⟨name, hname, hb⟩ := List.mem_filterMap.mp hb
    obtain ⟨hname, hnk⟩ := Node.mem_nodes_of_childrenOf hname
    obtain ⟨m, hm, rfl⟩ := Option.map_eq_some_iff.mp hb
    exact ⟨m, .inherited he hi hname hnk hm rfl⟩
  · rename_i hi
    have hek : entry.kind = .attrPathValue := by simpa [hi] using hk
    split at hb
    · cases hb
    · rename_i path hpath
      obtain ⟨m, hm, hname, -⟩ := Binding.last_ofSegments hb
      exact ⟨m, .entry he hek hpath hm hb hname⟩

theorem exists_binds {host : Node} {b : Binding} (hb : b ∈ (Host.mk host).bindings) :
    ∃ m, Binds host m b := by
  rw [Host.bindings] at hb
  split at hb
  · split at hb
    · cases hb
    · rename_i param hp
      have hk := List.find?_some hp
      rw [Bool.or_eq_true, beq_iff_eq, beq_iff_eq] at hk
      exact exists_binds_ofParameter (List.mem_of_find?_eq_some hp) hk hb
  · obtain ⟨entry, he, hb⟩ := List.mem_flatMap.mp hb
    exact exists_binds_ofEntry he hb

namespace Binds

variable {host m : Node} {b : Binding}

theorem name_eq (h : Binds host m b) : b.declaration.name = m.pointer := by
  cases h with
  | parameter _ _ hb =>
    obtain ⟨name, -, rfl⟩ := Option.map_eq_some_iff.mp hb
    rfl
  | formal _ _ _ _ _ hb =>
    obtain ⟨name, -, rfl⟩ := Option.map_eq_some_iff.mp hb
    rfl
  | inherited _ _ _ _ _ hb => rw [hb]
  | entry _ _ _ _ _ hname => exact hname

theorem mem_descendants (h : Binds host m b) : m ∈ host.descendants := by
  have hself := host.mem_descendants_self
  cases h with
  | parameter hm => exact Node.mem_descendants_of_mem_nodes hself hm
  | formal hp _ hpart _ hm =>
    have hpd := Node.mem_descendants_of_mem_nodes hself hp
    exact Node.mem_descendants_of_mem_nodes (Node.mem_descendants_of_mem_nodes hpd hpart)
      (Node.mem_nodes_of_child? hm).1
  | inherited hc _ hn _ hm =>
    have hcd := Node.mem_descendants_of_mem_nodes hself hc
    exact Node.mem_descendants_of_mem_nodes (Node.mem_descendants_of_mem_nodes hcd hn)
      (Node.mem_nodes_of_child? hm).1
  | entry he _ hp hm =>
    have hed := Node.mem_descendants_of_mem_nodes hself he
    exact Node.mem_descendants_of_mem_nodes
      (Node.mem_descendants_of_mem_nodes hed (Node.mem_nodes_of_child? hp).1)
      (Node.mem_nodes_of_childrenOf hm).1

theorem width_pos {root : Node} (hr : root.Rooted) (hh : host ∈ root.descendants)
    (h : Binds host m b) : 0 < Tree.widthOf m.trees := by
  have hd := Node.descendants_trans hh h.mem_descendants
  have hparam : ∀ {kind : DeclarationKind}, Binding.ofParam? kind m = some b →
      0 < Tree.widthOf m.trees := by
    intro kind hb
    obtain ⟨name, hname, -⟩ := Option.map_eq_some_iff.mp hb
    obtain ⟨l, hl, -⟩ := Option.map_eq_some_iff.mp hname
    exact hr.width_pos_of_token? hd hl
  have hself := host.mem_descendants_self
  cases h with
  | parameter _ _ hb => exact hparam hb
  | formal _ _ _ _ _ hb => exact hparam hb
  | inherited hc _ hn hnk hm =>
    obtain ⟨hm, hmk⟩ := Node.mem_nodes_of_child? hm
    have hcd := Node.mem_descendants_of_mem_nodes hself hc
    have hnd := Node.mem_descendants_of_mem_nodes hcd hn
    exact hr.width_pos_of_inheritedName (Node.descendants_trans hh hnd) hnk hm hmk
  | @entry entry path he hek hp hm =>
    obtain ⟨hm, hmk⟩ := Node.mem_nodes_of_childrenOf hm
    have hed := Node.mem_descendants_of_mem_nodes hself he
    have hwide := Node.everywhere_of_mem_descendants hr.wideNames (Node.descendants_trans hh hed)
    rw [hek] at hwide
    generalize ht : entry.trees = ts at hwide
    cases hwide with
    | attrPathValue hb hw =>
      exact hw m.trees (Node.trees_of_child? hp ht hb ▸ hmk ▸ Node.tree_mem_trees hm)
    | other hi ha => exact absurd rfl ha

end Binds

theorem exists_names {host : Node} {b : Binding} (hb : b ∈ (Host.mk host).bindings) :
    ∃ m, Binds host m b ∧ Names host m b.path.last := by
  have hparam : ∀ {kind : DeclarationKind} {m : Node}, m.kind = .paramName →
      Binding.ofParam? kind m = some b → Names host m b.path.last := by
    intro kind m hk hb
    obtain ⟨name, hname, rfl⟩ := Option.map_eq_some_iff.mp hb
    exact .parameter rfl hk hname
  obtain ⟨m, hm⟩ := exists_binds hb
  cases hm with
  | parameter hm hk hb => exact ⟨m, .parameter hm hk hb, hparam hk hb⟩
  | formal hp hpk hpart hk hm hb =>
    exact ⟨m, .formal hp hpk hpart hk hm hb, hparam (Node.mem_nodes_of_child? hm).2 hb⟩
  | inherited hc hck hn hnk hm hb =>
    obtain ⟨hmn, hmk⟩ := Node.mem_nodes_of_child? hm
    exact ⟨m, .inherited hc hck hn hnk hm hb, .inherited (by rw [hb]; rfl) hmn hmk hn hnk hc hck⟩
  | entry he hek hp _ hb =>
    obtain ⟨m, hm, hname, hlast⟩ := Binding.last_ofSegments hb
    obtain ⟨hpn, hpk⟩ := Node.mem_nodes_of_child? hp
    obtain ⟨hmn, hmk⟩ := Node.mem_nodes_of_childrenOf hm
    exact ⟨m, .entry he hek hp hm hb hname, .binding hlast hmn hmk hpn hpk he hek⟩

def NamedIn (host : Node) (b : Binding) : Prop :=
  ∃ m ∈ host.descendants, 0 < Tree.widthOf m.trees ∧ b.declaration.name = m.pointer ∧
    Names host m b.path.last

theorem namedIn_of_mem {root n : Node} (h : root.Rooted) (hn : n ∈ root.descendants) {b : Binding}
    (hb : b ∈ (Host.mk n).bindings) : NamedIn n b := by
  obtain ⟨m, hm, hnames⟩ := exists_names hb
  exact ⟨m, hm.mem_descendants, hm.width_pos h hn, hm.name_eq, hnames⟩

def Syntax.Node.IsNamed (m : Node) (name : String) : Prop :=
  m.kind = .paramName ∧ Var.name? m = some name ∨ m.kind = .attr ∧ Attr.staticName? m = some name

theorem Attribute.ofNode_eq_static {m : Node} {name : String} :
    ofNode m = static name ↔ Attr.staticName? m = some name := by
  rw [ofNode]
  cases Attr.staticName? m <;> simp

theorem Attribute.pointer_of_ofNode_eq_dynamic {m : Node} {p : Pointer}
    (h : ofNode m = dynamic p) : m.pointer = p := by
  rw [ofNode] at h
  cases hn : Attr.staticName? m with
  | none => simpa [hn] using h
  | some name => simp [hn] at h

theorem Names.isNamed {host m : Node} {name : String} (h : Names host m (.static name)) :
    m.IsNamed name := by
  cases h with
  | parameter ha hk hn =>
    cases ha
    exact .inl ⟨hk, hn⟩
  | binding ha hm hk => exact .inr ⟨hk, Attribute.ofNode_eq_static.mp ha.symm⟩
  | inherited ha hm hk => exact .inr ⟨hk, Attribute.ofNode_eq_static.mp ha.symm⟩

/-- What a candidate for a segment has to do with the segment. Only the first segment may be a
builtin by the other name that each member of `builtins` has. -/
def Symbol.Spells (root : Node) (isFirst : Bool) : Attribute → Symbol → Prop
  | .static name, declared host path =>
    declarations root (declared host path) ≠ [] ∧
      ∀ d ∈ declarations root (declared host path), ∃ m, d.name.find? root = some m ∧
        m.IsNamed name
  | .static name, builtin b => name = b.name ∨ isFirst = true ∧ name = "__" ++ b.name
  | .static name, adHoc a => a = .static name
  | .static name, member _ a => a = .static name
  | .dynamic _, s => s.isAdHoc = true

/-- No node of the host that a binding could be made under spells the dynamic attribute. -/
def Undeclared (host : Node) (a : Attribute) : Prop :=
  ∀ m ∈ host.descendants, 0 < Tree.widthOf m.trees → ∀ p, a = .dynamic p → ¬ Names host m a

theorem undeclared_static (host : Node) (name : String) : Undeclared host (.static name) :=
  fun _ _ _ _ ha => nomatch ha

section

variable {root : Node} (h : root.Rooted)

include h

/-- The declarations of a path that a node of the tree declares are found through its pointer. -/
theorem Symbol.declarations_of_declares {n : Node} (hn : n ∈ root.descendants)
    (hk : Host.of? n = some ⟨n⟩) {path : AttributePath}
    (hd : (Host.mk n).declares path = true) :
    declarations root (declared n.pointer path) = (Host.mk n).declarations path ∧
      (Host.mk n).declarations path ≠ [] := by
  obtain ⟨b, hb, hbp⟩ := List.any_eq_true.mp hd
  obtain ⟨m, hm, hw, -⟩ := namedIn_of_mem h hn hb
  have hf := h.find? hn (h.width_pos hn hm hw)
  refine ⟨by simp [declarations, hf, hk], ?_⟩
  have hmem : b.declaration ∈ (Host.mk n).declarations path :=
    List.mem_map_of_mem (List.mem_filter.mpr ⟨hb, hbp⟩)
  exact List.ne_nil_of_mem hmem

theorem spells_declared {n : Node} (hn : n ∈ root.descendants) (hk : Host.of? n = some ⟨n⟩)
    {path : AttributePath} (hd : (Host.mk n).declares path = true) (isFirst : Bool)
    (ha : Undeclared n path.last) :
    Symbol.Spells root isFirst path.last (.declared n.pointer path) := by
  obtain ⟨hdecl, hne⟩ := Symbol.declarations_of_declares h hn hk hd
  cases hl : path.last with
  | dynamic p =>
    obtain ⟨b, hb, hbp⟩ := List.any_eq_true.mp hd
    have hbp : b.path = path := by simpa using hbp
    obtain ⟨m, hm, hw, hname, hnames⟩ := namedIn_of_mem h hn hb
    rw [hbp] at hnames
    exact absurd hnames (ha m hm hw p hl)
  | static name =>
    refine ⟨hdecl ▸ hne, ?_⟩
    rw [hdecl]
    intro d hd
    obtain ⟨c, hc, rfl⟩ := List.mem_map.mp hd
    obtain ⟨hc, hcp⟩ := List.mem_filter.mp hc
    have hcp : c.path = path := by simpa using hcp
    obtain ⟨m, hm, hw, hname, hnames⟩ := namedIn_of_mem h hn hc
    rw [hcp, hl] at hnames
    refine ⟨m, ?_, hnames.isNamed⟩
    rw [hname]
    exact h.find? (Node.descendants_trans hn hm) hw

omit h in
/-- A host that a name sees is around it; one that an inherited name sees is not the node that it is
inherited into. -/
theorem Scope.mem_hosts {n : Node} {host : Host} (hh : host ∈ hosts n) :
    host.node ∈ n.outer ∧ Host.of? host.node = some host ∧
      (n.kind = .inheritedName → ∀ clause : Node, clause ∈ host.node.nodes → n ∉ clause.nodes) := by
  obtain ⟨a, ha, hof⟩ := List.mem_filterMap.mp (List.mem_filter.mp hh).1
  obtain ⟨-, hof'⟩ := Option.ite_none_right_eq_some.mp hof
  cases hof'
  refine ⟨?_, hof, fun hk clause hc hn => ?_⟩
  · rw [around] at ha
    split at ha
    · rename_i clause target outer ho
      split at ha
      · rw [ho]
        obtain rfl | ha := List.mem_cons.mp ha
        · exact List.mem_cons_self
        · exact List.mem_cons_of_mem _ (List.mem_cons_of_mem _ ha)
      · rwa [ho]
    · exact ha
  · have ho : n.outer = clause :: a :: a.outer := by
      rw [Node.outer_of_mem_nodes hn, Node.outer_of_mem_nodes hc]
    rw [around, ho] at ha
    simp only [hk, if_true] at ha
    obtain rfl | ha := List.mem_cons.mp ha
    · have hlt := Node.length_above_of_mem_outer (n := a) (m := a) (by
        rw [Node.outer_of_mem_nodes hc]
        exact List.mem_cons_self)
      exact Nat.lt_irrefl _ hlt
    · exact Nat.lt_irrefl _ (Node.length_above_of_mem_outer ha)

theorem eq_of_names {host m attr : Node} {p : Pointer} (ha : attr ∈ root.descendants)
    (hm : m ∈ root.descendants) (hw : 0 < Tree.widthOf m.trees)
    (hp : Attribute.ofNode attr = .dynamic p) (hn : Names host m (.dynamic p)) : m = attr := by
  have hmp : m.pointer = p := by
    cases hn with
    | parameter hd => cases hd
    | binding hd => exact Attribute.pointer_of_ofNode_eq_dynamic hd.symm
    | inherited hd => exact Attribute.pointer_of_ofNode_eq_dynamic hd.symm
  exact h.eq_of_pointer hm ha hw (hmp.trans (Attribute.pointer_of_ofNode_eq_dynamic hp).symm)

end

def Selected (root : Node) (a : Attribute) : Prop :=
  ∃ attr ∈ root.descendants, a = .ofNode attr ∧ ∃ path select : Node, attr ∈ path.nodes ∧
    path.kind = .attrPath ∧ path ∈ select.nodes ∧ select.kind = .select

section

variable {root : Node} (h : root.Rooted)

include h

/-- A dynamic segment of a selection is declared nowhere. -/
theorem Selected.undeclared {a : Attribute} (ha : Selected root a) {n : Node}
    (hn : n ∈ root.descendants) : Undeclared n a := by
  obtain ⟨attr, hattr, rfl, path, select, hm, hk, hp, hs⟩ := ha
  intro m hmn hw p hd hnames
  rw [hd] at hnames
  obtain rfl := eq_of_names h hattr (Node.descendants_trans hn hmn) hw hd hnames
  cases hnames with
  | parameter hd' => cases hd'
  | binding _ hm' _ hp' _ _ hek =>
    obtain rfl := Node.eq_of_mem_nodes hm hm'
    obtain rfl := Node.eq_of_mem_nodes hp hp'
    simp [hs] at hek
  | inherited _ hm' _ _ hnk =>
    obtain rfl := Node.eq_of_mem_nodes hm hm'
    simp [hk] at hnk

theorem undeclared_inherited {name attr : Node} (hname : name ∈ root.descendants)
    (hk : name.kind = .inheritedName) (hattr : attr ∈ name.nodes) {n : Node}
    (hn : Host.mk n ∈ Scope.hosts name) : Undeclared n (.ofNode attr) := by
  obtain ⟨ho, hk', hnd⟩ := Scope.mem_hosts hn
  have hattrd := Node.mem_descendants_of_mem_nodes hname hattr
  have hn := Node.mem_descendants_of_mem_outer h.above hname n ho
  intro m hmn hw p hd hnames
  rw [hd] at hnames
  obtain rfl := eq_of_names h hattrd (Node.descendants_trans hn hmn) hw hd hnames
  cases hnames with
  | parameter hd' => cases hd'
  | binding _ hm' _ _ hpk =>
    obtain rfl := Node.eq_of_mem_nodes hattr hm'
    simp [hk] at hpk
  | @inherited name' clause _ hm' _ hn' _ hc' hck =>
    obtain rfl := Node.eq_of_mem_nodes hattr hm'
    exact hnd hk clause hc' hn'

theorem spells_resolveName {n : Node} {a : Attribute} (hn : n ∈ root.descendants)
    (ha : ∀ host : Node, Host.mk host ∈ Scope.hosts n → Undeclared host a) :
    ∀ s ∈ Scope.resolveName n a, s.Spells root true a := by
  intro s hs
  rw [Scope.resolveName] at hs
  split at hs
  · rename_i host hf
    have hm := List.mem_of_find?_eq_some hf
    obtain ⟨ho, hof, -⟩ := Scope.mem_hosts hm
    have hd := Node.mem_descendants_of_mem_outer h.above hn _ ho
    have hdeclares : host.declares (.single a) = true := by simpa using List.find?_some hf
    rw [List.mem_singleton] at hs
    subst hs
    exact spells_declared h hd hof hdeclares true (ha host.node hm)
  · split at hs
    · rw [List.mem_singleton] at hs
      subst hs
      cases a <;> rfl
    · obtain ⟨b, hb, rfl⟩ := Option.map_eq_some_iff.mp (Option.mem_toList.mp hs)
      obtain ⟨name, hname, hb⟩ := Option.bind_eq_some_iff.mp hb
      cases a with
      | dynamic p => cases hname
      | static name' =>
        cases hname
        exact (Builtin.name_of_global? hb).imp_right fun hn => ⟨rfl, hn⟩

end

theorem Symbol.Spells.host {root : Node} {isFirst : Bool} {a : Attribute} {p : Pointer}
    {path : AttributePath} (hs : Spells root isFirst a (declared p path)) :
    ∃ n, p.find? root = some n ∧ Host.of? n = some ⟨n⟩ := by
  cases a with
  | dynamic q => cases hs
  | static name =>
    obtain ⟨hne, -⟩ := hs
    rw [declarations] at hne
    cases hf : (p.find? root).bind Host.of? with
    | none => simp [hf] at hne
    | some host =>
      obtain ⟨n, hn, hof⟩ := Option.bind_eq_some_iff.mp hf
      obtain ⟨-, hof'⟩ := Option.ite_none_right_eq_some.mp hof
      cases hof'
      exact ⟨n, hn, hof⟩

section

variable {root : Node} (h : root.Rooted)

include h

/-- A member of a declared path is declared by the node that declares the path, or by a set in the
tree that is bound to it. -/
theorem Symbol.declaredMembers_cases {n : Node} {path : AttributePath} {a : Attribute} {t : Symbol}
    (ht : t ∈ declaredMembers root ⟨n⟩ path a) :
    (Host.mk n).declares (path.child a) = true ∧ t = declared n.pointer (path.child a) ∨
      ∃ m ∈ root.descendants, Host.of? m = some ⟨m⟩ ∧ (Host.mk m).declares (.single a) = true ∧
        t = declared m.pointer (.single a) := by
  rw [declaredMembers] at ht
  split at ht
  · rename_i hd
    exact .inl ⟨hd, List.mem_singleton.mp ht⟩
  · obtain ⟨set, hset, rfl⟩ := List.mem_map.mp ht
    obtain ⟨hset, hd⟩ := List.mem_filter.mp hset
    obtain ⟨d, -, hset⟩ := List.mem_filterMap.mp hset
    obtain ⟨m, hm, rfl⟩ := Option.map_eq_some_iff.mp hset
    obtain ⟨hm, hk⟩ := Option.filter_eq_some_iff.mp hm
    obtain ⟨v, hv, hm⟩ := Option.bind_eq_some_iff.mp hm
    obtain ⟨q, -, hv⟩ := Option.bind_eq_some_iff.mp hv
    have hmd := Node.descendants_trans (h.mem_of_find? hv) (Node.mem_of_stripParens? hm)
    have hof : Host.of? m = some ⟨m⟩ := if_pos (.inr (.inr (by simpa using hk)))
    exact .inr ⟨m, hmd, hof, hd, rfl⟩

theorem spells_declaredMembers {n : Node} {path : AttributePath} {b : Attribute}
    (hn : n ∈ root.descendants) (hof : Host.of? n = some ⟨n⟩) (hb : Selected root b) :
    ∀ t ∈ Symbol.declaredMembers root ⟨n⟩ path b, t.Spells root false b := by
  intro t ht
  obtain ⟨hd, rfl⟩ | ⟨m, hm, hmo, hd, rfl⟩ := Symbol.declaredMembers_cases h ht
  · have hu : Undeclared n (path.child b).last := by simpa using hb.undeclared h hn
    simpa using spells_declared h hn hof hd false hu
  · exact spells_declared h hm hmo hd false (hb.undeclared h hm)

theorem spells_resolve {isFirst : Bool} {a b : Attribute} {s : Symbol}
    (hs : s.Spells root isFirst a) (hb : Selected root b) :
    ∀ t ∈ s.resolve root b, t.Spells root false b := by
  have hmember : (Symbol.member s b).Spells root false b := by cases b <;> rfl
  have hknown : ∀ t ∈ s.knownMembers root b, t.Spells root false b := by
    cases s with
    | declared p path =>
      obtain ⟨n, hn, hof⟩ := hs.host
      have hk : (Symbol.declared p path).knownMembers root b =
          Symbol.declaredMembers root ⟨n⟩ path b := by
        simp [Symbol.knownMembers, hn, hof]
      rw [hk]
      exact spells_declaredMembers h (h.mem_of_find? hn) hof hb
    | builtin c =>
      intro t ht
      obtain ⟨d, hd, rfl⟩ := Option.map_eq_some_iff.mp (Option.mem_toList.mp ht)
      obtain ⟨name, hname, hm⟩ := Option.bind_eq_some_iff.mp hd
      obtain ⟨-, hm⟩ := Option.ite_none_right_eq_some.mp hm
      cases b with
      | dynamic q => cases hname
      | static name' =>
        cases hname
        exact .inl (Builtin.name_of_ofName? hm).symm
    | adHoc c => exact fun t ht => nomatch ht
    | member p c => exact fun t ht => nomatch ht
  intro t ht
  rw [Symbol.resolve] at ht
  split at ht
  · rw [List.mem_singleton] at ht
    exact ht ▸ hmember
  · exact hknown t ht

omit h in
theorem spells_stop {isFirst : Bool} {a : Attribute} {current : List Symbol}
    {rest : List Attribute} (hc : ∀ s ∈ current, s.Spells root isFirst a) {i : Nat} {s : Symbol}
    (hs : s ∈ [current].getD i []) :
    ∃ b, (a :: rest)[i]? = some b ∧ s.Spells root (isFirst && i == 0) b := by
  cases i with
  | zero => exact ⟨a, rfl, by simpa using hc s hs⟩
  | succ i => cases hs

theorem spells_follow {isFirst : Bool} {a : Attribute} {current : List Symbol}
    {rest : List Attribute} (hc : ∀ s ∈ current, s.Spells root isFirst a)
    (hr : ∀ b ∈ rest, Selected root b) {i : Nat} {s : Symbol}
    (hs : s ∈ (Scope.follow root current rest).getD i []) :
    ∃ b, (a :: rest)[i]? = some b ∧ s.Spells root (isFirst && i == 0) b := by
  induction rest generalizing isFirst a current i with
  | nil => exact spells_stop hc hs
  | cons b rest ih =>
    match current with
    | [] => exact spells_stop hc hs
    | x :: y :: xs => exact spells_stop hc hs
    | [x] =>
      rw [Scope.follow] at hs
      split at hs
      · exact spells_stop hc hs
      cases i with
      | zero => exact ⟨a, rfl, by simpa using hc s hs⟩
      | succ i =>
        have hx := spells_resolve h (hc x List.mem_cons_self) (hr b List.mem_cons_self)
        have hr' : ∀ c ∈ rest, Selected root c := fun c hm => hr c (List.mem_cons_of_mem _ hm)
        obtain ⟨c, hi, hsp⟩ := ih hx hr' (by simpa using hs)
        exact ⟨c, by simpa using hi, by simpa using hsp⟩

end

namespace Usage

/-- The node of a usage is in the tree, the first segment of the usage is a plain name or a name in
an `inherit`, and the others are segments of a selection. -/
structure Placed (root : Node) (u : Usage) : Prop where
  element : u.element ∈ root.descendants
  first : (∃ name, u.first.name = .static name) ∨ u.element.kind = .inheritedName ∧
    ∃ attr ∈ u.element.nodes, u.first.name = .ofNode attr
  rest : ∀ s ∈ u.rest, Selected root s.name

theorem static_of_ofVar? {n : Node} {s : Segment} (h : Segment.ofVar? n = some s) :
    ∃ name, s.name = .static name := by
  obtain ⟨name, -, rfl⟩ := Option.map_eq_some_iff.mp h
  exact ⟨name, rfl⟩

theorem placed_ofVar? {root n : Node} {u : Usage} (hn : n ∈ root.descendants)
    (h : ofVar? n = some u) : u.Placed root := by
  rw [ofVar?] at h
  split at h
  · cases h
  · obtain ⟨s, hs, rfl⟩ := Option.map_eq_some_iff.mp h
    exact ⟨hn, .inl (static_of_ofVar? hs), by simp⟩

theorem placed_ofSelect? {root n : Node} {u : Usage} (hn : n ∈ root.descendants)
    (hk : n.kind = .select) (h : ofSelect? n = some u) : u.Placed root := by
  rw [ofSelect?] at h
  split at h
  · rename_i base attr attrs hb ha
    obtain ⟨s, hs, rfl⟩ := Option.map_eq_some_iff.mp h
    obtain ⟨path, hp, ha⟩ := Option.map_eq_some_iff.mp ha
    obtain ⟨hp, hpk⟩ := Node.mem_nodes_of_child? hp
    have hpd := Node.mem_descendants_of_mem_nodes hn hp
    refine ⟨hn, .inl (static_of_ofVar? hs), fun s hs => ?_⟩
    obtain ⟨m, hm, rfl⟩ := List.mem_map.mp hs
    rw [← ha] at hm
    obtain ⟨hm, -⟩ := Node.mem_nodes_of_childrenOf hm
    exact ⟨m, Node.mem_descendants_of_mem_nodes hpd hm, rfl, path, n, hm, hpk, hp, hk⟩
  · cases h

theorem placed_ofInherited? {root n : Node} {u : Usage} (hn : n ∈ root.descendants)
    (hk : n.kind = .inheritedName) (h : ofInherited? n = some u) : u.Placed root := by
  rw [ofInherited?] at h
  split at h
  · cases h
  split at h
  · cases h
  · obtain ⟨attr, ha, rfl⟩ := Option.map_eq_some_iff.mp h
    obtain ⟨ha, -⟩ := Node.mem_nodes_of_child? ha
    exact ⟨hn, .inr ⟨hk, attr, ha, rfl⟩, by simp⟩

theorem placed_of_mem_under {root : Node} {u : Usage} (hu : u ∈ under root) : u.Placed root := by
  obtain ⟨n, hn, h⟩ := List.mem_filterMap.mp hu
  rw [of?] at h
  split at h
  · exact placed_ofVar? hn h
  split at h
  · exact placed_ofSelect? hn (by assumption) h
  split at h
  · exact placed_ofInherited? hn (by assumption) h
  · cases h

end Usage

/-- The candidates for every segment of every usage of a file have its name: a declaration is made
under the name, and a builtin is known by it. A segment that only evaluation can name has no such
candidate. -/
theorem resolution_spells (text : String) (u : Usage) (hu : u ∈ Usage.under (parse text).root)
    (i : Nat) (s : Symbol) (hs : s ∈ (Resolution.of (parse text).root u).symbols i) :
    ∃ a, u.path.toList[i]? = some a ∧ s.Spells (parse text).root (i == 0) a := by
  have h := Parse.rooted text
  obtain ⟨hn, hfirst, hrest⟩ := Usage.placed_of_mem_under hu
  have hselected : ∀ a ∈ u.path.rest, Selected (parse text).root a := by
    intro a ha
    obtain ⟨s, hs, rfl⟩ := List.mem_map.mp ha
    exact hrest s hs
  have hundeclared : ∀ host : Node, Host.mk host ∈ Scope.hosts u.element →
      Undeclared host u.path.first := by
    intro host hh
    obtain ⟨name, hname⟩ | ⟨hk, attr, ha, hname⟩ := hfirst
    · rw [Usage.path, hname]
      exact undeclared_static host name
    · rw [Usage.path, hname]
      exact undeclared_inherited h hn hk ha hh
  have hcurrent := spells_resolveName h hn hundeclared
  obtain ⟨a, ha, hsp⟩ := spells_follow h hcurrent hselected hs
  exact ⟨a, ha, by simpa using hsp⟩

theorem resolution_spells_member :
    ∃ u ∈ Usage.under (parse "let a.b = 1; in a.b").root,
      ∃ s ∈ (Resolution.of (parse "let a.b = 1; in a.b").root u).symbols 1, s.isAdHoc = false ∧
        ∃ a, u.path.toList[1]? = some a ∧
          s.Spells (parse "let a.b = 1; in a.b").root (1 == 0) a := by
  have hs : ((Usage.under (parse "let a.b = 1; in a.b").root).any fun u =>
      ((Resolution.of (parse "let a.b = 1; in a.b").root u).symbols 1).any
        fun s => !s.isAdHoc) = true := by
    decide +kernel
  obtain ⟨u, hu, hs⟩ := List.any_eq_true.mp hs
  obtain ⟨s, hs, hd⟩ := List.any_eq_true.mp hs
  exact ⟨u, hu, s, hs, by simpa using hd, resolution_spells _ u hu 1 s hs⟩

end NixScope
