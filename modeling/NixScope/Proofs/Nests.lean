import NixScope.Proofs.Candidates

namespace NixScope

open Syntax

namespace AttributePath

theorem toList_inj {p q : AttributePath} : p.toList = q.toList ↔ p = q := by
  cases p
  cases q
  simp [toList]

@[simp] theorem toList_single (a : Attribute) : (single a).toList = [a] := rfl

@[simp] theorem toList_child (p : AttributePath) (a : Attribute) :
    (p.child a).toList = p.toList ++ [a] := rfl

end AttributePath

namespace Binding

def met (before : Option AttributePath) : List Attribute := (before.map (·.toList)).getD []

def segmentDeclaration (value : Option Pointer) (attr : Node) : List Node → Declaration
  | [] => ⟨.binding, attr.pointer, value⟩
  | _ :: _ => ⟨.attrPrefix, attr.pointer, none⟩

variable {value : Option Pointer} {before : Option AttributePath}

theorem toList_extend (before : Option AttributePath) (a : Attribute) :
    ((before.map (AttributePath.child · a)).getD (AttributePath.single a)).toList =
      met before ++ [a] := by
  cases before <;> simp [met]

theorem ofSegments_cons (value : Option Pointer) (before : Option AttributePath) (a : Node)
    (as : List Node) : ∃ p : AttributePath, p.toList = met before ++ [.ofNode a] ∧
      ofSegments value before (a :: as) =
        ⟨p, segmentDeclaration value a as⟩ :: ofSegments value (some p) as := by
  refine ⟨_, toList_extend before (.ofNode a), ?_⟩
  cases as <;> rfl

theorem length_ofSegments {as : List Node} {b : Binding} (hb : b ∈ ofSegments value before as) :
    (met before).length < b.path.toList.length ∧
      b.path.toList.length ≤ (met before).length + as.length := by
  induction as generalizing before with
  | nil => cases hb
  | cons a as ih =>
    obtain ⟨p, hp, he⟩ := ofSegments_cons value before a as
    have hlen : p.toList.length = (met before).length + 1 := by rw [hp]; simp
    rw [he] at hb
    obtain rfl | hb := List.mem_cons.mp hb
    · simp only [List.length_cons]
      omega
    · have hle : (met (some p)).length < b.path.toList.length ∧
          b.path.toList.length ≤ (met (some p)).length + as.length := ih hb
      have hmet : (met (some p)).length = p.toList.length := rfl
      simp only [List.length_cons]
      omega

theorem filter_ofSegments {as bs : List Node} {a : Node} {p : AttributePath}
    (hp : p.toList = met before ++ (as ++ [a]).map .ofNode) :
    (ofSegments value before (as ++ a :: bs)).filter (·.path == p) =
      [⟨p, segmentDeclaration value a bs⟩] := by
  induction as generalizing before with
  | nil =>
    obtain ⟨q, hq, he⟩ := ofSegments_cons value before a bs
    obtain rfl : q = p := AttributePath.toList_inj.mp (hq.trans hp.symm)
    have hnone : (ofSegments value (some q) bs).filter (·.path == q) = [] := by
      rw [List.filter_eq_nil_iff]
      intro b hb hbq
      have hlt : q.toList.length < b.path.toList.length := (length_ofSegments hb).1
      rw [beq_iff_eq.mp hbq] at hlt
      exact Nat.lt_irrefl _ hlt
    rw [List.nil_append, he, List.filter_cons_of_pos (by simp), hnone]
  | cons a' as ih =>
    obtain ⟨q, hq, he⟩ := ofSegments_cons value before a' (as ++ a :: bs)
    have hne : q ≠ p := by
      rintro rfl
      have hlen := congrArg List.length (hq.symm.trans hp)
      simp at hlen
    rw [List.cons_append, he, List.filter_cons_of_neg (by simpa using hne)]
    refine ih ?_
    rw [hp]
    simp [met, hq]

end Binding

/-- From the path that a node declares, each of the attributes leads to a single path that is
declared; each path on the way has a single declaration. -/
inductive Descends (root : Node) :
    Pointer → AttributePath → List Attribute → List Declaration → Prop
  | last {p : Pointer} {path : AttributePath} {d : Declaration}
      (hd : (Symbol.declared p path).declarations root = [d]) : Descends root p path [] [d]
  | step {p q : Pointer} {path next : AttributePath} {d : Declaration} {a : Attribute}
      {as : List Attribute} {ds : List Declaration}
      (hd : (Symbol.declared p path).declarations root = [d])
      (hr : (Symbol.declared p path).resolve root a = [.declared q next])
      (h : Descends root q next as ds) : Descends root p path (a :: as) (d :: ds)

namespace Descends

variable {root : Node} {p : Pointer} {path : AttributePath} {as : List Attribute}
  {ds : List Declaration}

/-- The candidates along the attributes are single ones, with a declaration each. -/
theorem exists_follow (h : Descends root p path as ds) :
    ∃ found : List (Pointer × AttributePath),
      Scope.follow root [.declared p path] as = found.map (fun f => [.declared f.1 f.2]) ∧
        found.length = as.length + 1 ∧
        found.map (fun f => (Symbol.declared f.1 f.2).declarations root) = ds.map ([·]) := by
  induction h with
  | @last p path d hd => exact ⟨[(p, path)], rfl, rfl, by simp [hd]⟩
  | @step p q path next d a as ds hd hr h ih =>
    obtain ⟨found, hf, hlen, hds⟩ := ih
    refine ⟨(p, path) :: found, ?_, by simp [hlen], by simp [hd, hds]⟩
    rw [Scope.follow, if_neg (by simp [Symbol.isAdHoc]), hr, hf, List.map_cons]

end Descends

/-- The node declares nothing but the path of the attributes, for the value. -/
structure Host.BindsOnly (root n : Node) (attrs : List Node) (value : Node) : Prop where
  host : Host.of? n = some ⟨n⟩
  found : n.pointer.find? root = some n
  bindings : (Host.mk n).bindings = Binding.ofSegments (some value.pointer) none attrs
  value_found : value.pointer.find? root = some value

/-- The attributes are those of nested sets, from the node inwards: the node binds the path of the
first ones, the set that it binds it to the path of the next ones, and so on. -/
inductive Nests (root : Node) : Node → List Node → Prop
  | last {n a value : Node} {as : List Node} (h : Host.BindsOnly root n (a :: as) value) :
      Nests root n (a :: as)
  | more {n a value : Node} {as bs : List Node} (h : Host.BindsOnly root n (a :: as) value)
      (hk : value.kind = .attrSet) (hn : Nests root value bs) : Nests root n (a :: as ++ bs)

namespace Host.BindsOnly

open Binding

variable {root n value : Node} {as bs : List Node} {a : Node} {p : AttributePath}

theorem declarations (h : Host.BindsOnly root n (as ++ a :: bs) value)
    (hp : p.toList = (as ++ [a]).map .ofNode) :
    (Host.mk n).declarations p = [segmentDeclaration (some value.pointer) a bs] := by
  rw [Host.declarations, h.bindings, filter_ofSegments (by simpa [met] using hp)]
  rfl

theorem declares (h : Host.BindsOnly root n (as ++ a :: bs) value)
    (hp : p.toList = (as ++ [a]).map .ofNode) : (Host.mk n).declares p = true := by
  have hm : (⟨p, segmentDeclaration (some value.pointer) a bs⟩ : Binding) ∈
      (Host.mk n).bindings.filter (·.path == p) := by
    rw [h.bindings, filter_ofSegments (by simpa [met] using hp)]
    exact List.mem_cons_self
  obtain ⟨hm, hpath⟩ := List.mem_filter.mp hm
  exact List.any_eq_true.mpr ⟨_, hm, hpath⟩

theorem declares_first (h : Host.BindsOnly root n (a :: bs) value) :
    (Host.mk n).declares (.single (.ofNode a)) = true := by
  have hnil : Host.BindsOnly root n ([] ++ a :: bs) value := h
  exact hnil.declares rfl

theorem not_declares (h : Host.BindsOnly root n as value) (hp : as.length < p.toList.length) :
    (Host.mk n).declares p = false := by
  rw [Host.declares, List.any_eq_false]
  intro b hb hbp
  rw [h.bindings] at hb
  have hle : b.path.toList.length ≤ 0 + as.length := (length_ofSegments hb).2
  rw [beq_iff_eq.mp hbp] at hle
  omega

theorem symbol_declarations (h : Host.BindsOnly root n as value) :
    (Symbol.declared n.pointer p).declarations root = (Host.mk n).declarations p := by
  rw [Symbol.declarations, h.found, Option.bind_some, h.host]
  rfl

theorem knownMembers (h : Host.BindsOnly root n as value) (b : Attribute) :
    (Symbol.declared n.pointer p).knownMembers root b = Symbol.declaredMembers root ⟨n⟩ p b := by
  rw [Symbol.knownMembers, h.found, Option.bind_some, h.host]
  rfl

theorem resolve_inside {b : Node} (h : Host.BindsOnly root n (as ++ a :: b :: bs) value)
    (hp : p.toList = (as ++ [a]).map .ofNode) :
    (Symbol.declared n.pointer p).resolve root (.ofNode b) =
      [.declared n.pointer (p.child (.ofNode b))] := by
  have hsplit : as ++ a :: b :: bs = (as ++ [a]) ++ b :: bs := by simp
  have hd : (Host.mk n).declares (p.child (.ofNode b)) = true :=
    (hsplit ▸ h).declares (by simp [hp])
  rw [Symbol.resolve, h.knownMembers, Symbol.declaredMembers, if_pos hd]

theorem resolve_behind {b set : Node} {more : List Node}
    (h : Host.BindsOnly root n (as ++ [a]) set) (hk : set.kind = .attrSet)
    (hs : Host.BindsOnly root set (b :: more) value) (hp : p.toList = (as ++ [a]).map .ofNode) :
    (Symbol.declared n.pointer p).resolve root (.ofNode b) =
      [.declared set.pointer (.single (.ofNode b))] := by
  have hnot : (Host.mk n).declares (p.child (.ofNode b)) = false :=
    h.not_declares (by simp [hp])
  have hset : Symbol.setOf? root (segmentDeclaration (some set.pointer) a []) = some ⟨set⟩ := by
    have hv : (segmentDeclaration (some set.pointer) a []).value? root = some set := h.value_found
    have hstrip : set.stripParens? = some set := by simp [Node.stripParens?, hk]
    simp [Symbol.setOf?, hv, hstrip, hk]
  have hd := hs.declares_first
  have hdecl : (Host.mk n).declarations p = [segmentDeclaration (some set.pointer) a []] :=
    h.declarations hp
  rw [Symbol.resolve, h.knownMembers, Symbol.declaredMembers, hnot, if_neg (by simp), hdecl,
    List.filterMap_cons_some hset, List.filterMap_nil]
  simp [hd]

/-- What is met behind the whole path of a node is met behind each part that it begins with. -/
theorem descends (h : Host.BindsOnly root n (as ++ a :: bs) value)
    (hp : p.toList = (as ++ [a]).map .ofNode) (more : List Attribute) (names : List Pointer)
    (hend : ∀ (cs : List Node) (c : Node) (q : AttributePath), as ++ a :: bs = cs ++ [c] →
      q.toList = (cs ++ [c]).map .ofNode →
        ∃ ds, ds.map (·.name) = c.pointer :: names ∧ Descends root n.pointer q more ds) :
    ∃ ds, ds.map (·.name) = (a :: bs).map (·.pointer) ++ names ∧
      Descends root n.pointer p (bs.map .ofNode ++ more) ds := by
  -- `as` are the attributes that were passed, so `as ++ a :: bs` stays the same all the way
  induction bs generalizing as a p with
  | nil => exact hend as a p rfl hp
  | cons b bs ih =>
    have hsplit : as ++ a :: b :: bs = (as ++ [a]) ++ b :: bs := by simp
    have hnext : (p.child (.ofNode b)).toList = ((as ++ [a]) ++ [b]).map .ofNode := by simp [hp]
    obtain ⟨ds, hds, hdesc⟩ := ih (hsplit ▸ h) hnext fun cs c q hc => hend cs c q (hsplit.trans hc)
    refine ⟨segmentDeclaration (some value.pointer) a (b :: bs) :: ds, ?_, ?_⟩
    · rw [List.map_cons, hds]
      rfl
    · exact .step (h.symbol_declarations.trans (h.declarations hp)) (h.resolve_inside hp) hdesc

end Host.BindsOnly

namespace Nests

variable {root n a : Node} {as : List Node}

theorem exists_bindsOnly (h : Nests root n as) :
    ∃ b bs cs value, as = b :: cs ∧ Host.BindsOnly root n (b :: bs) value := by
  cases h with
  | @last _ b value bs h => exact ⟨b, bs, bs, value, rfl, h⟩
  | @more _ b value bs cs h => exact ⟨b, bs, bs ++ cs, value, rfl, h⟩

theorem descends (h : Nests root n (a :: as)) :
    ∃ ds, ds.map (·.name) = (a :: as).map (·.pointer) ∧
      Descends root n.pointer (.single (.ofNode a)) (as.map .ofNode) ds := by
  generalize hattrs : a :: as = attrs at h
  induction h generalizing a as with
  | @last n b value bs hb =>
    cases hattrs
    have hnil : Host.BindsOnly root n ([] ++ b :: bs) value := hb
    obtain ⟨ds, hds, hdesc⟩ := hnil.descends (p := .single (.ofNode b)) rfl [] []
      fun cs c q hc hq => by
        have hb' : Host.BindsOnly root n (cs ++ [c]) value := hc ▸ hb
        exact ⟨_, rfl, .last (hb'.symbol_declarations.trans (hb'.declarations hq))⟩
    rw [List.append_nil] at hds hdesc
    exact ⟨ds, hds, hdesc⟩
  | @more n b set bs cs hb hk hn ih =>
    cases hattrs
    -- at the end of the path of `n`, the step leads into the set, and from there on as in `ih`
    obtain ⟨c, ds, cs, value, rfl, hset⟩ := hn.exists_bindsOnly
    obtain ⟨es, hes, hinner⟩ := ih rfl
    have hnil : Host.BindsOnly root n ([] ++ b :: bs) set := hb
    obtain ⟨ds, hds, hdesc⟩ := hnil.descends (p := .single (.ofNode b)) rfl
      ((c :: cs).map .ofNode) ((c :: cs).map (·.pointer)) fun ds d q hd hq => by
        have hb' : Host.BindsOnly root n (ds ++ [d]) set := hd ▸ hb
        refine ⟨_ :: es, ?_, .step (hb'.symbol_declarations.trans (hb'.declarations hq))
          (hb'.resolve_behind hk hset hq) hinner⟩
        rw [List.map_cons, hes]
        rfl
    refine ⟨ds, ?_, ?_⟩
    · simpa using hds
    · simpa using hdesc

end Nests

end NixScope
