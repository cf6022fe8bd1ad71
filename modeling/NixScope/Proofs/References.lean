import Mathlib.Data.List.Basic
import NixScope.Editor.Navigation
import NixScope.Proofs.Candidates
import NixScope.Proofs.Usages

namespace NixScope

open Syntax

theorem Names.isName {host m : Node} {a : Attribute} (h : Names host m a) : m.IsName := by
  cases h with
  | parameter _ hk => exact .inr (.inl hk)
  | binding _ _ hk => exact .inr (.inr hk)
  | inherited _ _ hk => exact .inr (.inr hk)

theorem Symbol.exists_binding {root : Node} (h : root.Rooted) {s : Symbol} {c : Declaration}
    (hc : c ∈ s.declarations root) :
    ∃ host b, host ∈ root.descendants ∧ Host.of? host = some ⟨host⟩ ∧
      b ∈ (Host.mk host).bindings ∧ b.declaration = c ∧ s = .declared host.pointer b.path := by
  cases s with
  | declared p path =>
    rw [declarations] at hc
    cases hf : (p.find? root).bind Host.of? with
    | none => simp [hf] at hc
    | some host =>
      obtain ⟨n, hn, hof⟩ := Option.bind_eq_some_iff.mp hf
      obtain ⟨-, he⟩ := Option.ite_none_right_eq_some.mp hof
      cases he
      rw [hf, Option.map_some, Option.getD_some] at hc
      obtain ⟨b, hb, rfl⟩ := List.mem_map.mp hc
      obtain ⟨hb, hpath⟩ := List.mem_filter.mp hb
      refine ⟨n, b, h.mem_of_find? hn, hof, hb, rfl, ?_⟩
      rw [Pointer.eq_of_find? hn, beq_iff_eq.mp hpath]
  | builtin b => cases hc
  | adHoc a => cases hc
  | member t a => cases hc

theorem Symbol.exists_name {root : Node} (h : root.Rooted) {s : Symbol} {c : Declaration}
    (hc : c ∈ s.declarations root) :
    ∃ m ∈ root.descendants, m.IsName ∧ m.range.start < m.range.stop ∧ c.name = m.pointer ∧
      c.name.find? root = some m := by
  obtain ⟨host, b, hh, -, hb, rfl, -⟩ := exists_binding h hc
  obtain ⟨m, hm, hw, hname, hnames⟩ := namedIn_of_mem h hh hb
  have hmd := Node.descendants_trans hh hm
  exact ⟨m, hmd, hnames.isName, h.range_lt hmd hw, hname, hname ▸ h.find? hmd hw⟩

namespace Document

section

variable {α : Type} [DecidableEq α]

theorem mem_dropRepeats {as : List α} {a : α} : a ∈ dropRepeats as ↔ a ∈ as := by
  fun_induction dropRepeats as with
  | case1 b rest ih =>
    rw [ih]
    simp
  | case2 b c rest hne ih => rw [List.mem_cons, List.mem_cons, ih]
  | case3 as => rfl

theorem pairwise_dropRepeats {key : α → Nat} {as : List α}
    (hs : as.Pairwise fun a b => key a ≤ key b)
    (he : ∀ a ∈ as, ∀ b ∈ as, key a = key b → a = b) :
    (dropRepeats as).Pairwise fun a b => key a < key b := by
  fun_induction dropRepeats as with
  | case1 b rest ih =>
    exact ih (List.pairwise_cons.mp hs).2 fun a ha c hc =>
      he a (List.mem_cons_of_mem _ ha) c (List.mem_cons_of_mem _ hc)
  | case2 a b rest hne ih =>
    obtain ⟨hfirst, hrest⟩ := List.pairwise_cons.mp hs
    rw [List.pairwise_cons]
    refine ⟨fun c hc => ?_, ih hrest fun a ha c hc =>
      he a (List.mem_cons_of_mem _ ha) c (List.mem_cons_of_mem _ hc)⟩
    have hlt : key a < key b := by
      refine Nat.lt_of_le_of_ne (hfirst b List.mem_cons_self) fun hk => hne ?_
      exact he a List.mem_cons_self b (List.mem_cons_of_mem _ List.mem_cons_self) hk
    obtain rfl | hc := List.mem_cons.mp (mem_dropRepeats.mp hc)
    · exact hlt
    · exact Nat.lt_of_lt_of_le hlt ((List.pairwise_cons.mp hrest).1 c hc)
  | case3 as hshort =>
    match as with
    | [] => exact .nil
    | [a] => exact List.pairwise_singleton _ _
    | a :: b :: rest => exact absurd rfl (hshort a b rest)

end

variable {d : Document}

theorem mem_declarationRanges {symbols : List Symbol} {r : Range} :
    r ∈ d.declarationRanges symbols ↔
      ∃ c ∈ symbols.flatMap (·.declarations d.root), c.name.range = r := by
  rw [declarationRanges, mem_dropRepeats, List.mem_mergeSort, List.mem_map]

theorem pairwise_declarationRanges (h : d.root.Rooted) (symbols : List Symbol) :
    (d.declarationRanges symbols).Pairwise fun r s => r.start < s.start := by
  have hsorted : (((symbols.flatMap (·.declarations d.root)).map (·.name.range)).mergeSort
      fun r s => r.start ≤ s.start).Pairwise fun r s => r.start ≤ s.start := by
    refine (List.pairwise_mergeSort ?_ ?_ _).imp fun hle => by simpa using hle
    · intro a b c hab hbc
      simp only [decide_eq_true_eq] at hab hbc ⊢
      omega
    · intro a b
      simp only [Bool.or_eq_true, decide_eq_true_eq]
      omega
  apply pairwise_dropRepeats hsorted
  have hname : ∀ r ∈ ((symbols.flatMap (·.declarations d.root)).map (·.name.range)).mergeSort
      fun r s => r.start ≤ s.start, ∃ m ∈ d.root.descendants, m.IsName ∧
        m.range.start < m.range.stop ∧ m.range = r := by
    intro r hr
    rw [List.mem_mergeSort, List.mem_map] at hr
    obtain ⟨c, hc, rfl⟩ := hr
    obtain ⟨s, -, hc⟩ := List.mem_flatMap.mp hc
    obtain ⟨m, hm, hk, hlt, hp, -⟩ := Symbol.exists_name h hc
    exact ⟨m, hm, hk, hlt, by rw [hp]; rfl⟩
  intro a ha b hb hab
  obtain ⟨m, hm, hkm, hltm, rfl⟩ := hname a ha
  obtain ⟨n, hn, hkn, hltn, rfl⟩ := hname b hb
  rw [h.name_eq_of_start hm hn hkm hkn hltm hltn hab]

theorem map_targets (h : d.root.Rooted) (file : FileId) (symbols : List Symbol) :
    ((symbols.flatMap (·.declarations d.root)).filterMap (Target.of? file d)).map
        (fun t => (t.file, t.range, t.kind)) =
      (symbols.flatMap (·.declarations d.root)).map fun c => (file, c.name.range, c.kind) := by
  have hc : ∀ c ∈ symbols.flatMap (·.declarations d.root),
      (Target.of? file d c).map (fun t => (t.file, t.range, t.kind)) =
        some (file, c.name.range, c.kind) := by
    intro c hc
    obtain ⟨s, -, hc⟩ := List.mem_flatMap.mp hc
    obtain ⟨m, -, -, -, hp, hf⟩ := Symbol.exists_name h hc
    rw [Target.of?, hf, hp]
    rfl
  rw [List.map_filterMap]
  exact List.filterMap_eq_map_iff_forall_eq_some.mpr hc

theorem references_eq {file : FileId} {o : Nat} {symbols : List Symbol}
    (hs : d.symbolsAt o = symbols) :
    d.references file o = (d.declarationRanges symbols).map (.of file d true) ++
      ((Usage.under d.root).flatMap (d.usageRanges symbols)).map (.of file d false) := by
  rw [references, hs]
  cases symbols with
  | cons s symbols => rfl
  | nil =>
    have hu : d.usageRanges [] = fun _ => [] := by
      funext u
      simp [usageRanges]
    rw [hu]
    simp [declarationRanges, dropRepeats]

theorem mem_usageRanges {symbols : List Symbol} {u : Usage} {r : Range} :
    r ∈ d.usageRanges symbols u ↔ ∃ j t, u.segments[j]? = some t ∧ t.node.range = r ∧
      ∃ c ∈ symbols, c ∈ (Resolution.of d.root u).symbols j := by
  rw [usageRanges, List.mem_map]
  constructor
  · rintro ⟨⟨t, j⟩, ht, rfl⟩
    obtain ⟨ht, hc⟩ := List.mem_filter.mp ht
    obtain ⟨c, hc, hm⟩ := List.any_eq_true.mp hc
    exact ⟨j, t, List.mem_zipIdx_iff_getElem?.mp ht, rfl, c, List.contains_iff_mem.mp hm, hc⟩
  · rintro ⟨j, t, ht, rfl, c, hc, hm⟩
    refine ⟨(t, j), List.mem_filter.mpr ⟨List.mem_zipIdx_iff_getElem?.mpr ht, ?_⟩, rfl⟩
    exact List.any_eq_true.mpr ⟨c, hm, List.contains_iff_mem.mpr hc⟩

end Document

def Symbol.attribute? : Symbol → Option Attribute
  | declared _ _ => none
  | builtin _ => none
  | adHoc a => some a
  | member _ a => some a

/-- The symbols may be the candidates for the attribute: each spells it, and one that only
evaluation can find is for this attribute alone. -/
def Candidates (root : Node) (a : Attribute) (symbols : List Symbol) : Prop :=
  ∀ s ∈ symbols, (∃ isFirst, s.Spells root isFirst a) ∧
    (s.isAdHoc = true → s.attribute? = some a)

section

variable {root : Node}

theorem isAdHoc_of_dynamic {p : Pointer} {symbols : List Symbol}
    (h : Candidates root (.dynamic p) symbols) {s : Symbol} (hs : s ∈ symbols) :
    s.isAdHoc = true := by
  obtain ⟨⟨isFirst, hs⟩, -⟩ := h s hs
  exact hs

theorem attribute_resolveName {n : Node} {a : Attribute} {s : Symbol}
    (hs : s ∈ Scope.resolveName n a) (ha : s.isAdHoc = true) : s.attribute? = some a := by
  rw [Scope.resolveName] at hs
  split at hs
  · cases List.mem_singleton.mp hs
    cases ha
  split at hs
  · cases List.mem_singleton.mp hs
    rfl
  · obtain ⟨b, -, rfl⟩ := Option.map_eq_some_iff.mp (Option.mem_toList.mp hs)
    cases ha

theorem not_isAdHoc_of_knownMembers {s t : Symbol} {b : Attribute}
    (ht : t ∈ s.knownMembers root b) : t.isAdHoc = false := by
  cases s with
  | declared p path =>
    rw [Symbol.knownMembers] at ht
    cases hf : (p.find? root).bind Host.of? with
    | none => simp [hf] at ht
    | some host =>
      rw [hf, Option.map_some, Option.getD_some, Symbol.declaredMembers] at ht
      split at ht
      · cases List.mem_singleton.mp ht
        rfl
      · obtain ⟨set, -, rfl⟩ := List.mem_map.mp ht
        rfl
  | builtin c =>
    obtain ⟨d, -, rfl⟩ := Option.map_eq_some_iff.mp (Option.mem_toList.mp ht)
    rfl
  | adHoc c => cases ht
  | member p c => cases ht

theorem attribute_resolve {s t : Symbol} {b : Attribute} (ht : t ∈ s.resolve root b)
    (ha : t.isAdHoc = true) : t.attribute? = some b := by
  rw [Symbol.resolve] at ht
  split at ht
  · cases List.mem_singleton.mp ht
    rfl
  · rw [not_isAdHoc_of_knownMembers ht] at ha
    cases ha

/-- The candidates along a path. Where a segment has some, all segments before it are known without
evaluation. -/
theorem candidates_follow (h : root.Rooted) {a : Attribute} {current : List Symbol}
    {rest : List Attribute} (hc : Candidates root a current) (hr : ∀ b ∈ rest, Selected root b)
    {i : Nat} (hne : (Scope.follow root current rest).getD i [] ≠ []) :
    (∃ b, (a :: rest)[i]? = some b ∧
        Candidates root b ((Scope.follow root current rest).getD i [])) ∧
      ∀ k < i, ∃ name, (a :: rest)[k]? = some (.static name) := by
  induction rest generalizing a current i with
  | nil =>
    cases i with
    | zero => exact ⟨⟨a, rfl, hc⟩, by simp⟩
    | succ i => simp [Scope.follow] at hne
  | cons b rest ih =>
    have hstop : Scope.follow root current (b :: rest) = [current] →
        (∃ c, (a :: b :: rest)[i]? = some c ∧
          Candidates root c ((Scope.follow root current (b :: rest)).getD i [])) ∧
        ∀ k < i, ∃ name, (a :: b :: rest)[k]? = some (.static name) := by
      intro he
      rw [he] at hne ⊢
      cases i with
      | zero => exact ⟨⟨a, rfl, hc⟩, by simp⟩
      | succ i => simp at hne
    obtain _ | ⟨x, _ | ⟨y, xs⟩⟩ := current
    · exact hstop rfl
    · by_cases hx : x.isAdHoc = true
      · exact hstop (by rw [Scope.follow, if_pos hx])
      · obtain ⟨isFirst, hsx⟩ := (hc x List.mem_cons_self).1
        have hb := hr b List.mem_cons_self
        have hnext : Candidates root b (x.resolve root b) := fun t ht =>
          ⟨⟨false, spells_resolve h hsx hb t ht⟩, fun ha => attribute_resolve ht ha⟩
        rw [Scope.follow, if_neg hx] at hne ⊢
        cases i with
        | zero => exact ⟨⟨a, rfl, hc⟩, by simp⟩
        | succ i =>
          obtain ⟨⟨c, hi, hcand⟩, hbefore⟩ :=
            ih hnext (fun c hm => hr c (List.mem_cons_of_mem _ hm)) (by simpa using hne)
          refine ⟨⟨c, by simpa using hi, by simpa using hcand⟩, fun k hk => ?_⟩
          cases k with
          | zero =>
            cases a with
            | static name => exact ⟨name, rfl⟩
            | dynamic p => exact absurd (isAdHoc_of_dynamic hc List.mem_cons_self) hx
          | succ k =>
            obtain ⟨name, hname⟩ := hbefore k (by omega)
            exact ⟨name, by simpa using hname⟩
    · exact hstop rfl

end

namespace Usage

section

variable {root : Node} (h : root.Rooted) {u : Usage} (hu : u ∈ under root)

include h hu

theorem undeclared_first {host : Node} (hh : Host.mk host ∈ Scope.hosts u.element) :
    Undeclared host u.path.first := by
  obtain ⟨hn, ⟨name, hname⟩ | ⟨hk, attr, ha, hname⟩, -⟩ := placed_of_mem_under hu
  · rw [path, hname]
    exact undeclared_static host name
  · rw [path, hname]
    exact undeclared_inherited h hn hk ha hh

theorem candidates_symbols {i : Nat} (hne : (Resolution.of root u).symbols i ≠ []) :
    (∃ b, u.path.toList[i]? = some b ∧ Candidates root b ((Resolution.of root u).symbols i)) ∧
      ∀ k < i, ∃ name, u.path.toList[k]? = some (.static name) := by
  obtain ⟨hn, -, hrest⟩ := placed_of_mem_under hu
  have hfirst : Candidates root u.path.first (Scope.resolveName u.element u.path.first) :=
    fun s hs => ⟨⟨true, spells_resolveName h hn (fun _ => undeclared_first h hu) s hs⟩,
      fun ha => attribute_resolveName hs ha⟩
  have hselected : ∀ a ∈ u.path.rest, Selected root a := by
    intro a ha
    obtain ⟨s, hs, rfl⟩ := List.mem_map.mp ha
    exact hrest s hs
  exact candidates_follow h hfirst hselected hne

end

theorem path_toList (u : Usage) : u.path.toList = u.segments.map (·.name) := rfl

theorem segment_cases {root : Node} {u : Usage} (hu : u ∈ under root) {s : Segment}
    (hs : s ∈ u.segments) :
    s.node.kind = .var ∧ (∃ name, s.name = .static name) ∨
      s.node.kind = .attr ∧ s.name = .ofNode s.node := by
  cases stands_of_mem hu with
  | var hk hname =>
    cases List.mem_singleton.mp hs
    exact .inl ⟨hk, _, rfl⟩
  | inherited hk ha =>
    cases List.mem_singleton.mp hs
    exact .inr ⟨(Node.mem_nodes_of_child? ha).2, rfl⟩
  | select hk hb hbk hname hp =>
    obtain rfl | hs := List.mem_cons.mp hs
    · exact .inl ⟨hbk, _, rfl⟩
    · obtain ⟨attr, ha, rfl⟩ := List.mem_map.mp hs
      exact .inr ⟨(Node.mem_nodes_of_childrenOf ha).2, rfl⟩

section

variable {root : Node} (h : root.Rooted) {u v : Usage} (hu : u ∈ under root) (hv : v ∈ under root)

include h hu

omit h in
theorem static_of_isPlain {s : Segment} (hs : s ∈ u.segments) (hp : s.isPlain = true) :
    ∃ name, s.name = .static name := by
  obtain ⟨-, hname⟩ | ⟨hk, hname⟩ := segment_cases hu hs
  · exact hname
  · obtain hkv | ⟨-, hp⟩ := Segment.plain_cases hp
    · simp [hk] at hkv
    · obtain ⟨name, hstatic⟩ := Segment.staticName?_of_spelling hp
      exact ⟨name, hname.trans (Attribute.ofNode_eq_static.mpr hstatic)⟩

theorem range_lt_of_static {s : Segment} (hs : s ∈ u.segments) {name : String}
    (hname : s.name = .static name) : s.node.range.start < s.node.range.stop := by
  have hn := mem_root_of_mem_segments h hu hs
  have hk := (name_of_mem_segments h hu hs).2
  have hne : s.node.elements ≠ [] := by
    intro he
    obtain ⟨hk, -⟩ | ⟨hk, hof⟩ := segment_cases hu hs
    · obtain ⟨l, hel, -⟩ := h.word_of_mem hn (.inl hk)
      rw [he] at hel
      cases hel
    · rw [hof, Attribute.ofNode_eq_static] at hname
      simp [Attr.staticName?, Attr.spelling?, he] at hname
  obtain ⟨l, hl, hstart, -⟩ := h.first_of_nameForm hn (h.nameForm hn hk) hne
  have hlt := h.leaf_lt (List.mem_cons_of_mem _ (Node.inside_subset hn _ hl))
  have hc : l.range.stop ≤ s.node.range.stop :=
    (Node.contains_of_mem_inside (h.wellPlaced_of_mem hn) hl).2
  omega

include hv

/-- A segment that shares a candidate with a static one is static. -/
theorem static_of_shared {i j : Nat} {s t : Segment} {name : String}
    (hs : u.segments[i]? = some s) (ht : v.segments[j]? = some t) (hname : s.name = .static name)
    {c : Symbol} (hcu : c ∈ (Resolution.of root u).symbols i)
    (hcv : c ∈ (Resolution.of root v).symbols j) : ∃ name, t.name = .static name := by
  obtain ⟨⟨a, ha, hca⟩, -⟩ := candidates_symbols h hu (List.ne_nil_of_mem hcu)
  obtain ⟨⟨b, hb, hcb⟩, -⟩ := candidates_symbols h hv (List.ne_nil_of_mem hcv)
  rw [path_toList, List.getElem?_map, hs, Option.map_some, Option.some.injEq] at ha
  rw [path_toList, List.getElem?_map, ht, Option.map_some, Option.some.injEq] at hb
  subst ha hb
  cases hb : t.name with
  | static name => exact ⟨name, rfl⟩
  | dynamic p =>
    rw [hb] at hcb
    have hadHoc := isAdHoc_of_dynamic hcb hcv
    have hattr := ((hca c hcu).2 hadHoc).symm.trans ((hcb c hcv).2 hadHoc)
    simp [hname] at hattr

end

theorem isUsage_of_mem {root : Node} {u : Usage} (hu : u ∈ under root) :
    u.element.kind.isUsage = true := by
  cases stands_of_mem hu with
  | var hk => simp [hk, Kind.isUsage]
  | select hk => simp [hk, Kind.isUsage]
  | inherited hk => simp [hk, Kind.isUsage]

theorem element_ne {root : Node} {u : Usage} (hu : u ∈ under root) {n : Node}
    (hn : n.kind.isUsage = false) : u.element ≠ n := by
  rintro rfl
  rw [isUsage_of_mem hu] at hn
  cases hn

section

variable {root : Node} (h : root.Rooted) {v : Usage} (hv : v ∈ under root)

include h hv

theorem lt_of_mem_attr {a : Node} (ha : a ∈ root.descendants) (hk : a.kind = .attr)
    (hi : .node v.element ∈ a.inside) : a.range.start < v.element.range.start := by
  apply h.lt_start_of_name ha (.inr (.inr hk)) hi
  · intro hs
    exact element_ne hv (by simp [hs, Kind.isUsage]) rfl
  · intro hs
    exact element_ne hv (by simp [hs, Kind.isUsage]) rfl

omit h in
theorem mem_inside_of_attr {a : Node} (hk : a.kind = .attr) (hm : v.element ∈ a.descendants) :
    .node v.element ∈ a.inside := by
  obtain he | hm := Node.mem_descendants_iff.mp hm
  · exact absurd he (element_ne hv (by simp [hk, Kind.isUsage]))
  · exact hm

theorem mem_attr_or_behind {n base path : Node} (hn : n ∈ root.descendants)
    (hk : n.kind = .select) (hb : Select.base? n = some base) (hbk : base.kind = .var)
    (hp : Select.path? n = some path) (hi : .node v.element ∈ n.inside) :
    (∃ a ∈ path.nodes, .node v.element ∈ a.inside) ∨
      path.range.stop < v.element.range.start := by
  obtain ⟨hpn, hpk⟩ := Node.mem_nodes_of_child? hp
  have hpd := Node.mem_descendants_of_mem_nodes hn hpn
  obtain hvb | hve | hvp | hbehind := h.mem_select_cases hn hk hb hbk hp hi
  · -- The variable is no usage of its own.
    obtain ⟨before, between, after, hf⟩ := h.selectForm hn hk hb hbk hp
    have hbm := hf.elements ▸ List.mem_append_left _ (List.mem_append_left _ hf.base_mem)
    have hof := (mem_under.mp hv).2
    rw [hvb, of?_selectBase (Node.node_mem_elements.mp hbm) hk hb hbk] at hof
    cases hof
  · exact absurd rfl (element_ne hv (by simp [hve, Kind.isUsage]))
  · left
    obtain he | hvp := Node.mem_descendants_iff.mp hvp
    · exact absurd he (element_ne hv (by simp [hpk, Kind.isUsage]))
    · obtain ⟨a, ha, hva⟩ := Node.node_mem_inside.mp hvp
      have hak := (h.attrs_apart hpd hpk).2 a ha
      exact ⟨a, ha, mem_inside_of_attr hv hak hva⟩
  · exact .inr hbehind

omit hv in
theorem stop_le_of_select {n base path : Node} {name : String} (hn : n ∈ root.descendants)
    (hk : n.kind = .select) (hb : Select.base? n = some base) (hbk : base.kind = .var)
    (hp : Select.path? n = some path) {s : Segment}
    (hs : s ∈ segments ⟨n, ⟨.static name, base⟩, (AttrPath.attrs path).map .ofAttr⟩) :
    s.node.range.stop ≤ path.range.stop := by
  obtain ⟨hpn, -⟩ := Node.mem_nodes_of_child? hp
  have hpd := Node.mem_descendants_of_mem_nodes hn hpn
  have hwell := h.wellPlaced_of_mem hpd
  obtain rfl | hs := List.mem_cons.mp hs
  · obtain ⟨before, between, after, hf⟩ := h.selectForm hn hk hb hbk hp
    have hsorted := Node.pairwise_elements (h.wellPlaced_of_mem hn)
    rw [hf.elements, List.pairwise_append] at hsorted
    have hbp : base.range.stop ≤ path.range.start :=
      hsorted.2.2 _ (List.mem_append_left _ hf.base_mem) _ List.mem_cons_self
    have hwidth : path.range.stop = path.range.start + _ := hwell.stop_eq
    have hgoal : base.range.stop ≤ path.range.stop := by omega
    exact hgoal
  · obtain ⟨a, ha, rfl⟩ := List.mem_map.mp hs
    obtain ⟨ha, -⟩ := Node.mem_nodes_of_childrenOf ha
    exact (Node.contains_of_mem_inside hwell
      (Node.mem_inside.mpr (.inl (Node.node_mem_elements.mpr ha)))).2

variable {u : Usage} (hu : u ∈ under root)

include hu

/-- A usage inside of another one is in an attribute of its path, or behind all of its segments. -/
theorem mem_segment_or_behind (hi : .node v.element ∈ u.element.inside) :
    (∃ (k : Nat) (a : Node), u.segments[k]? = some (Segment.ofAttr a) ∧ a.kind = .attr ∧
        .node v.element ∈ a.inside) ∨
      ∀ s ∈ u.segments, s.node.range.stop ≤ v.element.range.start := by
  have hn := (mem_under.mp hu).1
  cases stands_of_mem hu with
  | var hk =>
    obtain ⟨l, he, -⟩ := h.word_of_mem hn (.inl hk)
    obtain ⟨c, hc, -⟩ := Node.node_mem_inside.mp hi
    rw [Node.nodes_of_elements he] at hc
    cases hc
  | @inherited n attr hk ha =>
    obtain ⟨han, hak⟩ := Node.mem_nodes_of_child? ha
    obtain ⟨only, honly⟩ := h.nodes_of_inheritedName hn hk
    obtain ⟨c, hc, hvc⟩ := Node.node_mem_inside.mp hi
    have hca : c = attr := by
      rw [honly, List.mem_singleton] at hc han
      exact hc.trans han.symm
    subst hca
    exact .inl ⟨0, c, rfl, hak, mem_inside_of_attr hv hak hvc⟩
  | @select n base path name hk hb hbk hname hp =>
    obtain ⟨hpn, hpk⟩ := Node.mem_nodes_of_child? hp
    have hpd := Node.mem_descendants_of_mem_nodes hn hpn
    obtain ⟨a, ha, hva⟩ | hbehind := mem_attr_or_behind h hv hn hk hb hbk hp hi
    · have hak := (h.attrs_apart hpd hpk).2 a ha
      have hattr : a ∈ AttrPath.attrs path := List.mem_filter.mpr ⟨ha, by simp [hak]⟩
      obtain ⟨k, hka, ha⟩ := List.getElem_of_mem hattr
      exact .inl ⟨k + 1, a, by simp [segments, ha, hka], hak, hva⟩
    · right
      intro s hs
      have hstop := stop_le_of_select h hn hk hb hbk hp hs
      omega

theorem not_mem_inside_of_static {a : Node} {k : Nat} (ha : u.segments[k]? = some (Segment.ofAttr a))
    (hak : a.kind = .attr) {name : String} (hname : Attribute.ofNode a = .static name) :
    .node v.element ∉ a.inside := by
  intro hva
  have had := mem_root_of_mem_segments h hu (List.mem_of_getElem? ha)
  have hcalm := h.calm_of_static had hak (Attribute.ofNode_eq_static.mp hname)
  exact element_ne hv (hcalm _ (Node.mem_descendants_of_mem_inside hva)) rfl

/-- A usage inside of another one starts behind all segments of that which have candidates. -/
theorem lt_of_mem_inside (hi : .node v.element ∈ u.element.inside) {i : Nat} {s : Segment}
    (hs : u.segments[i]? = some s) (hne : (Resolution.of root u).symbols i ≠ [])
    (hlt : s.node.range.start < s.node.range.stop) :
    s.node.range.start < v.element.range.start := by
  have hm := List.mem_of_getElem? hs
  obtain ⟨k, a, ha, hak, hva⟩ | hbehind := mem_segment_or_behind h hv hu hi
  · have had := mem_root_of_mem_segments h hu (List.mem_of_getElem? ha)
    have hstart : a.range.start < v.element.range.start := lt_of_mem_attr h hv had hak hva
    obtain hik | rfl | hik := Nat.lt_trichotomy i k
    · have hsa : s.node.range.stop < a.range.start := stop_lt_of_lt h hu hs ha hik
      omega
    · rw [hs, Option.some.injEq] at ha
      rw [ha]
      exact hstart
    · -- Behind a dynamic segment there are no candidates, and a static one has no usage in it.
      obtain ⟨name, hname⟩ := (candidates_symbols h hu hne).2 k hik
      rw [path_toList, List.getElem?_map, ha, Option.map_some, Option.some.injEq] at hname
      exact absurd hva (not_mem_inside_of_static h hv hu ha hak hname)
  · have hstop := hbehind s hm
    omega

end

section

variable {root : Node} (h : root.Rooted)

include h

theorem pairwise_under : (under root).Pairwise fun u v =>
    .node v.element ∈ u.element.inside ∨ u.element.range.stop ≤ v.element.range.start := by
  rw [under, Node.descendants, List.pairwise_filterMap, List.pairwise_filterMap]
  refine h.pairwise_walk.imp ?_
  rintro a b hab n hn m hm u hu v hv
  cases a <;> cases hn
  cases b <;> cases hm
  obtain ⟨rfl, -⟩ := stands_of_of? hu
  obtain ⟨rfl, -⟩ := stands_of_of? hv
  cases hab with
  | around hi => exact .inl hi
  | behind hb => exact .inr hb

theorem pairwise_starts {u : Usage} (hu : u ∈ under root) :
    u.segments.Pairwise fun s t => s.node.range.start < t.node.range.start := by
  refine (List.Pairwise.and_mem.mp (pairwise_segments h hu)).imp ?_
  rintro s t ⟨hs, -, hlt⟩
  have hw : s.node.range.stop = s.node.range.start + _ :=
    (h.wellPlaced_of_mem (mem_root_of_mem_segments h hu hs)).stop_eq
  omega

end

end Usage

namespace Document

/-- The offset stands in the segment of the number `i` of a usage of the file, and the segment is
plain. -/
structure OnSegment (d : Document) (u : Usage) (i : Nat) (s : Segment) (o : Nat) : Prop where
  mem : u ∈ Usage.under d.root
  segment : u.segments[i]? = some s
  plain : s.isPlain = true
  start_le : s.node.range.start ≤ o
  lt_stop : o < s.node.range.stop

def Share (d : Document) (u : Usage) (i : Nat) (v : Usage) (j : Nat) : Prop :=
  ∃ c ∈ (Resolution.of d.root u).symbols i, c ∈ (Resolution.of d.root v).symbols j

theorem Share.symm {d : Document} {u v : Usage} {i j : Nat} (h : d.Share u i v j) :
    d.Share v j u i := by
  obtain ⟨c, hu, hv⟩ := h
  exact ⟨c, hv, hu⟩

section

variable {d : Document} (h : d.root.Rooted) {u : Usage} {i : Nat} {s : Segment} {o : Nat}
  (hp : d.OnSegment u i s o)

include h hp

theorem OnSegment.usage? : Cursor.usage? d.root o = some (u, i) :=
  Cursor.usage?_eq h hp.mem hp.segment hp.start_le hp.lt_stop hp.plain

theorem OnSegment.symbolsAt : d.symbolsAt o = (Resolution.of d.root u).symbols i := by
  rw [Document.symbolsAt, hp.usage? h]

theorem OnSegment.definitions (file : FileId) : d.definitions file o =
    (((Resolution.of d.root u).symbols i).flatMap (·.declarations d.root)).filterMap
      (Target.of? file d) := by
  rw [Document.definitions, hp.usage? h]

theorem OnSegment.mem_definitions (file : FileId) {r : Range} :
    (∃ t ∈ d.definitions file o, t.range = r) ↔
      ∃ c ∈ ((Resolution.of d.root u).symbols i).flatMap (·.declarations d.root),
        c.name.range = r := by
  have hm := map_targets h file ((Resolution.of d.root u).symbols i)
  have hr := congrArg (List.map fun t => t.2.1) hm
  rw [List.map_map, List.map_map] at hr
  have hmem : r ∈ (d.definitions file o).map (·.range) ↔ r ∈
      (((Resolution.of d.root u).symbols i).flatMap (·.declarations d.root)).map
        (·.name.range) := by
    rw [hp.definitions h]
    exact Eq.to_iff (congrArg (r ∈ ·) hr)
  rwa [List.mem_map, List.mem_map] at hmem

theorem OnSegment.range_lt {v : Usage} (hv : v ∈ Usage.under d.root) {j : Nat} {t : Segment}
    (ht : v.segments[j]? = some t) (hc : d.Share u i v j) :
    t.node.range.start < t.node.range.stop := by
  obtain ⟨name, hname⟩ :=
    Usage.static_of_isPlain hp.mem (List.mem_of_getElem? hp.segment) hp.plain
  obtain ⟨c, hcu, hcv⟩ := hc
  obtain ⟨name', hname'⟩ := Usage.static_of_shared h hp.mem hv hp.segment ht hname hcu hcv
  exact Usage.range_lt_of_static h hv (List.mem_of_getElem? ht) hname'

theorem OnSegment.pairwise_usageRanges :
    ((Usage.under d.root).flatMap (d.usageRanges ((Resolution.of d.root u).symbols i))).Pairwise
      fun r s => r.start < s.start := by
  rw [List.pairwise_flatMap]
  refine ⟨fun v hv => ?_, ?_⟩
  · rw [usageRanges, List.pairwise_map]
    apply List.Pairwise.filter
    have hstarts := Usage.pairwise_starts h hv
    rwa [← List.zipIdx_map_fst 0 v.segments, List.pairwise_map] at hstarts
  · refine (List.Pairwise.and_mem.mp (Usage.pairwise_under h)).imp ?_
    rintro v w ⟨hv, hw, hvw⟩ x hx y hy
    obtain ⟨j, t, ht, rfl, hcv⟩ := mem_usageRanges.mp hx
    obtain ⟨k, t', ht', rfl, -⟩ := mem_usageRanges.mp hy
    have hlt := hp.range_lt h hv ht hcv
    have hcw := (Usage.contains_of_mem_segments h hw (List.mem_of_getElem? ht')).1
    obtain hi | hb := hvw
    · obtain ⟨c, -, hc⟩ := hcv
      have hstart := Usage.lt_of_mem_inside h hw hv hi ht (List.ne_nil_of_mem hc) hlt
      omega
    · have hstop := (Usage.contains_of_mem_segments h hv (List.mem_of_getElem? ht)).2
      omega

omit hp in
theorem OnSegment.mem_references_iff {v : Usage} {j : Nat} {t : Segment} {o' : Nat}
    (hq : d.OnSegment v j t o') (file : FileId) :
    Reference.of file d false t.node.range ∈ d.references file o ↔
      ∃ c ∈ d.symbolsAt o, c ∈ (Resolution.of d.root v).symbols j := by
  rw [references_eq rfl, List.mem_append]
  constructor
  · rintro (hm | hm)
    · obtain ⟨r, -, he⟩ := List.mem_map.mp hm
      cases congrArg Reference.isDeclaration he
    · obtain ⟨r, hr, he⟩ := List.mem_map.mp hm
      have hrt : r = t.node.range := congrArg Reference.range he
      obtain ⟨w, hw, hr⟩ := List.mem_flatMap.mp hr
      obtain ⟨k, x, hx, hxr, hshare⟩ := mem_usageRanges.mp hr
      have hxm := List.mem_of_getElem? hx
      have htm := List.mem_of_getElem? hq.segment
      have hlt : t.node.range.start < t.node.range.stop :=
        Nat.lt_of_le_of_lt hq.start_le hq.lt_stop
      have hrange : x.node.range = t.node.range := hxr.trans hrt
      -- Only one name is there, and only one usage has it as a segment.
      have hnode : x.node = t.node := h.name_eq_of_start
        (Usage.mem_root_of_mem_segments h hw hxm) (Usage.mem_root_of_mem_segments h hq.mem htm)
        (Usage.name_of_mem_segments h hw hxm).2 (Usage.name_of_mem_segments h hq.mem htm).2
        (hrange ▸ hlt) hlt (by rw [hrange])
      have hplain : x.isPlain = true := by
        rw [Segment.isPlain, hnode]
        exact hq.plain
      have hxo : d.OnSegment w k x o' :=
        ⟨hw, hx, hplain, hrange ▸ hq.start_le, hrange ▸ hq.lt_stop⟩
      have heq := (hxo.usage? h).symm.trans (hq.usage? h)
      cases heq
      exact hshare
  · intro hshare
    right
    apply List.mem_map_of_mem
    exact List.mem_flatMap.mpr
      ⟨v, hq.mem, mem_usageRanges.mpr ⟨j, t, hq.segment, rfl, hshare⟩⟩

theorem OnSegment.mem_references {v : Usage} {j : Nat} {t : Segment} {o' : Nat}
    (hq : d.OnSegment v j t o') (file : FileId) :
    Reference.of file d false t.node.range ∈ d.references file o ↔ d.Share u i v j := by
  rw [hq.mem_references_iff h, hp.symbolsAt h, Share]

end

/-- In a plain segment, a jump lists the declarations of its candidates, all of them and in order.
The references are the ranges of these and of the segments with a candidate in common, both without
repeats and in the order of the text. Of two plain segments, each is among the references of the
other or neither is. -/
theorem references_agree (path : Path) (text : String) (file : FileId) (u : Usage) (i : Nat)
    (s : Segment) (o : Nat) (hp : (Document.of path text).OnSegment u i s o) :
    let d := Document.of path text
    let symbols := (Resolution.of d.root u).symbols i
    (d.definitions file o).map (fun t => (t.file, t.range, t.kind)) =
        (symbols.flatMap (·.declarations d.root)).map (fun c => (file, c.name.range, c.kind)) ∧
      (∃ declared used : List Range,
        d.references file o = declared.map (.of file d true) ++ used.map (.of file d false) ∧
        (∀ r, r ∈ declared ↔ ∃ t ∈ d.definitions file o, t.range = r) ∧
        (∀ r, r ∈ used ↔ ∃ v ∈ Usage.under d.root, ∃ j t, v.segments[j]? = some t ∧
          t.node.range = r ∧ d.Share u i v j) ∧
        declared.Pairwise (fun r r' => r.start < r'.start) ∧
        used.Pairwise (fun r r' => r.start < r'.start)) ∧
      ∀ v j t o', d.OnSegment v j t o' →
        (Reference.of file d false t.node.range ∈ d.references file o ↔
          Reference.of file d false s.node.range ∈ d.references file o') := by
  intro d symbols
  have h : d.root.Rooted := Parse.rooted text
  refine ⟨?_, ⟨d.declarationRanges symbols, (Usage.under d.root).flatMap (d.usageRanges symbols),
    references_eq (hp.symbolsAt h), fun r => ?_, fun r => ?_, pairwise_declarationRanges h symbols,
    hp.pairwise_usageRanges h⟩, fun v j t o' hq => ?_⟩
  · rw [hp.definitions h file]
    exact map_targets h file symbols
  · rw [mem_declarationRanges, hp.mem_definitions h file]
  · simp only [List.mem_flatMap, mem_usageRanges, Share, symbols]
  · rw [hp.mem_references h hq, hq.mem_references h hp]
    exact ⟨Share.symm, Share.symm⟩

theorem references_agree_quoted :
    ∃ u s, (Document.of ⟨"a.nix"⟩ "let a.\"b c\" = 1; in a.\"b c\"").OnSegment u 1 s 24 ∧
      ((Document.of ⟨"a.nix"⟩ "let a.\"b c\" = 1; in a.\"b c\"").definitions ⟨0⟩ 24).map
          (fun t => (t.file, t.range, t.kind)) =
        (((Resolution.of (Document.of ⟨"a.nix"⟩ "let a.\"b c\" = 1; in a.\"b c\"").root u).symbols
          1).flatMap (·.declarations (Document.of ⟨"a.nix"⟩
            "let a.\"b c\" = 1; in a.\"b c\"").root)).map
          fun c => (⟨0⟩, c.name.range, c.kind) := by
  have hs : ((Usage.under (Document.of ⟨"a.nix"⟩ "let a.\"b c\" = 1; in a.\"b c\"").root).any
      fun u => (u.segments[1]?).any fun s =>
        s.isPlain && decide (s.node.range.start ≤ 24 ∧ 24 < s.node.range.stop)) = true := by
    decide +kernel
  obtain ⟨u, hu, hs⟩ := List.any_eq_true.mp hs
  obtain ⟨s, hs, hp⟩ := (Option.any_eq_true _ _).mp hs
  rw [Bool.and_eq_true, decide_eq_true_eq] at hp
  have hon : (Document.of ⟨"a.nix"⟩ "let a.\"b c\" = 1; in a.\"b c\"").OnSegment u 1 s 24 :=
    ⟨hu, hs, hp.1, hp.2.1, hp.2.2⟩
  exact ⟨u, s, hon, (references_agree ⟨"a.nix"⟩ "let a.\"b c\" = 1; in a.\"b c\"" ⟨0⟩ u 1 s 24 hon).1⟩

end Document

end NixScope
