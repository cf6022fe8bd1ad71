import Mathlib.Data.Nat.Find
import NixScope.Proofs.References

namespace NixScope

open Syntax

theorem Syntax.Node.descendants_of_mem_ancestors {root m x : Node} (hr : root.above = [])
    (hm : m ∈ root.descendants) (hx : x ∈ m.ancestors) :
    x ∈ root.descendants ∧ m ∈ x.descendants := by
  refine descendants_induct (motive := fun m => ∀ x ∈ m.ancestors,
    x ∈ root.descendants ∧ m ∈ x.descendants) ?_ ?_ m hm x hx
  · intro x hx
    have hself : root.ancestors = [root] := by simp [ancestors, outer, hr, trail]
    rw [hself, List.mem_singleton] at hx
    rw [hx]
    exact ⟨root.mem_descendants_self, root.mem_descendants_self⟩
  · intro p c hp hc ih x hx
    rw [ancestors_of_mem_nodes hc, List.mem_cons] at hx
    obtain rfl | hx := hx
    · exact ⟨mem_descendants_of_mem_nodes hp hc, x.mem_descendants_self⟩
    · obtain ⟨hxr, hpx⟩ := ih x hx
      exact ⟨hxr, mem_descendants_of_mem_nodes hpx hc⟩

namespace Binds

variable {host m : Node} {b : Binding}

theorem kind_eq (h : Binds host m b) : m.kind = .paramName ∨ m.kind = .attr := by
  cases h with
  | parameter _ hk => exact .inl hk
  | formal _ _ _ _ hm => exact .inl (Node.mem_nodes_of_child? hm).2
  | inherited _ _ _ _ hm => exact .inr (Node.mem_nodes_of_child? hm).2
  | entry _ _ _ hm => exact .inr (Node.mem_nodes_of_childrenOf hm).2

/-- Between a name and the host that it is bound in stands neither a name nor a host. -/
theorem ancestors_eq (h : Binds host m b) :
    ∃ between, m.ancestors = m :: (between ++ host.ancestors) ∧
      ∀ x ∈ between, ¬ x.IsName ∧ Host.of? x = none := by
  have hother : ∀ {x : Node} {k : Kind}, x.kind = k →
      (k matches .pattern | .patternBind | .patternEntry | .inherit | .inheritedName | .attrPath |
        .attrPathValue) = true → ¬ x.IsName ∧ Host.of? x = none := by
    intro x k hx hk
    rw [Node.IsName, Host.of?, hx]
    cases k <;> first | (simp; done) | cases hk
  cases h with
  | parameter hm => exact ⟨[], Node.ancestors_of_mem_nodes hm, by simp⟩
  | @formal pattern part kind hp hpk hpart hk hm =>
    obtain ⟨hm, -⟩ := Node.mem_nodes_of_child? hm
    refine ⟨[part, pattern], ?_, ?_⟩
    · rw [Node.ancestors_of_mem_nodes hm, Node.ancestors_of_mem_nodes hpart,
        Node.ancestors_of_mem_nodes hp]
      rfl
    · simp only [List.forall_mem_cons]
      refine ⟨?_, hother hpk rfl, by simp⟩
      obtain ⟨hk, -⟩ | ⟨hk, -⟩ := hk <;> exact hother hk rfl
  | @inherited clause name hc hck hn hnk hm =>
    obtain ⟨hm, -⟩ := Node.mem_nodes_of_child? hm
    refine ⟨[name, clause], ?_, ?_⟩
    · rw [Node.ancestors_of_mem_nodes hm, Node.ancestors_of_mem_nodes hn,
        Node.ancestors_of_mem_nodes hc]
      rfl
    · simp only [List.forall_mem_cons]
      exact ⟨hother hnk rfl, hother hck rfl, by simp⟩
  | @entry entry path he hek hp hm =>
    obtain ⟨hp, hpk⟩ := Node.mem_nodes_of_child? hp
    obtain ⟨hm, -⟩ := Node.mem_nodes_of_childrenOf hm
    refine ⟨[path, entry], ?_, ?_⟩
    · rw [Node.ancestors_of_mem_nodes hm, Node.ancestors_of_mem_nodes hp,
        Node.ancestors_of_mem_nodes he]
      rfl
    · simp only [List.forall_mem_cons]
      exact ⟨hother hpk rfl, hother hek rfl, by simp⟩

theorem range_lt {root : Node} (hr : root.Rooted) (hh : host ∈ root.descendants)
    (h : Binds host m b) : m.range.start < m.range.stop :=
  hr.range_lt (Node.descendants_trans hh h.mem_descendants) (h.width_pos hr hh)

theorem hosts_eq (h : Binds host m b) (hk : Host.of? host = some ⟨host⟩) :
    m.ancestors.filterMap Host.of? = ⟨host⟩ :: host.outer.filterMap Host.of? := by
  obtain ⟨between, hbetween, hother⟩ := h.ancestors_eq
  have hself : Host.of? m = none := by
    rw [Host.of?, if_neg]
    obtain hn | hn := h.kind_eq <;> simp [hn]
  have hnil : between.filterMap Host.of? = [] :=
    List.filterMap_eq_nil_iff.mpr fun x hx => (hother x hx).2
  rw [hbetween, List.filterMap_cons_none hself, List.filterMap_append, hnil, List.nil_append,
    Node.ancestors, List.filterMap_cons_some hk]

end Binds

namespace Cursor

/-- Where a name ends at the offset, a name begins there as well, so that the cursor is on that. -/
def NameBegins (root : Node) (o : Nat) : Prop :=
  ∀ x ∈ root.walk.filterMap Element.leaf?, isName x.kind = true → x.range.stop = o →
    ∃ l ∈ root.walk.filterMap Element.leaf?, isName l.kind = true ∧ l.range.start = o

def OffSegments (root : Node) (o : Nat) : Prop :=
  ∀ u ∈ Usage.under root, ∀ s ∈ u.segments, ¬ (s.node.range.start ≤ o ∧ o < s.node.range.stop)

/-- The offset is in the segment `g` of a usage, and in no other segment but those around `g`. -/
structure InSegment (root : Node) (v : Usage) (j : Nat) (g : Segment) (o : Nat) : Prop where
  mem : v ∈ Usage.under root
  segment : v.segments[j]? = some g
  start_le : g.node.range.start ≤ o
  lt_stop : o < g.node.range.stop
  innermost : ∀ w ∈ Usage.under root, ∀ x ∈ w.segments, x.node.range.start ≤ o →
    o < x.node.range.stop → x.node.range.contains g.node.range = true

instance (root : Node) (o : Nat) : Decidable (NameBegins root o) :=
  inferInstanceAs (Decidable (∀ x ∈ root.walk.filterMap Element.leaf?, _))

instance (root : Node) (o : Nat) : Decidable (OffSegments root o) :=
  inferInstanceAs (Decidable (∀ u ∈ Usage.under root, ∀ s ∈ u.segments, _))

section

variable {root : Node} (h : root.Rooted)

include h

theorem leaf?_of_nameBegins {l : Leaf} (hl : .leaf l ∈ root.walk)
    (hn : NameBegins root l.range.start) : leaf? root l.range.start = some l := by
  obtain he | ⟨x, hx, hxo, -, hxn, hln, -⟩ := leaf?_eq h hl (Nat.le_refl _) (h.leaf_lt hl)
  · exact he
  · obtain ⟨y, hy, hyn, hys⟩ := hn x (mem_leaves.mpr hx) hxn hxo
    rw [eq_of_start_eq h hl (mem_leaves.mp hy) hys.symm, hyn] at hln
    cases hln

/-- The cursor at the start of a name is on the string or the braces that spell it, if any, and on
what is around the name. -/
theorem around_name {m : Node} (hm : m ∈ root.descendants) (hk : m.IsName)
    (hlt : m.range.start < m.range.stop) (hn : NameBegins root m.range.start) :
    ∃ path, around root m.range.start = path ++ m.ancestors ∧
      ∀ x ∈ path, x.kind = .string ∨ x.kind = .dynamic := by
  have hw := h.wellPlaced_of_mem hm
  have hleaf : ∀ {l : Leaf} {c : Node}, c ∈ root.descendants → .leaf l ∈ c.elements →
      l.range.start = m.range.start → around root m.range.start = c.ancestors := by
    intro l c hc hl hs
    have hlw : .leaf l ∈ root.walk := mem_walk_of_mem_inside hc (Node.mem_inside.mpr (.inl hl))
    have ha : l.above = c.toSpot :: c.above := Node.above_of_mem_elements hl
    rw [← hs] at hn ⊢
    rw [around, leaf?_of_nameBegins h hlw hn]
    dsimp only
    rw [ha]
    rfl
  have hchild : ∀ {l : Leaf} {c : Node} {es : List Element}, m.elements = [.node c] →
      c.elements = .leaf l :: es → around root m.range.start = [c] ++ m.ancestors := by
    intro l c es he hs
    have hc : c ∈ m.nodes := by simp [Node.nodes_of_elements he]
    have hcd := Node.mem_descendants_of_mem_nodes hm hc
    have hls := (Node.start_of_elements (h.wellPlaced_of_mem hcd) hs).trans
      (Node.start_of_elements hw he)
    rw [hleaf hcd (hs ▸ List.mem_cons_self) hls, Node.ancestors_of_mem_nodes hc]
    rfl
  cases h.nameForm hm hk with
  | missing he =>
    obtain ⟨l, hl, -⟩ := exists_leaf h hm (Nat.le_refl _) hlt
    obtain hl | ⟨c, hc, -⟩ := Node.mem_inside.mp hl
    · rw [he] at hl
      cases hl
    · rw [Node.nodes_of_elements he] at hc
      cases hc
  | word he =>
    exact ⟨[], hleaf hm (he ▸ List.mem_cons_self) (Node.start_of_elements hw he), by simp⟩
  | quoted he hc hs => exact ⟨_, hchild he hs, by simpa using .inl hc⟩
  | computed he hc hs => exact ⟨_, hchild he hs, by simpa using .inr hc⟩

variable {m : Node} (hm : m ∈ root.descendants) (hk : m.kind = .paramName ∨ m.kind = .attr)
  (hlt : m.range.start < m.range.stop)

include hk hlt

/-- No segment of a usage ends where a name in the usage begins. -/
theorem stop_ne_start {v : Usage} (hv : v ∈ Usage.under root) (hmv : m ∈ v.element.descendants)
    {g : Segment} (hg : g ∈ v.segments) : g.node.range.stop ≠ m.range.start := by
  have hn := (Usage.mem_under.mp hv).1
  have hi : .node m ∈ v.element.inside := by
    obtain rfl | hi := Node.mem_descendants_iff.mp hmv
    · have hu := Usage.isUsage_of_mem hv
      obtain hk | hk := hk <;> simp [hk, Kind.isUsage] at hu
    · exact hi
  have hsegment : ∀ {s : Segment}, s ∈ v.segments → m ∈ s.node.descendants →
      g.node.range.stop ≠ m.range.start := by
    intro s hs hms
    have hw := h.wellPlaced_of_mem (Usage.mem_root_of_mem_segments h hv hs)
    have hc := Range.contains_iff.mp (hw.contains_of_mem hms)
    exact Usage.stop_ne_of_mem h hv hs hg hc.1 (Nat.lt_of_lt_of_le hlt hc.2)
  cases Usage.stands_of_mem hv with
  | var hkv =>
    obtain ⟨l, he, -⟩ := h.word_of_mem hn (.inl hkv)
    obtain ⟨c, hc, -⟩ := Node.node_mem_inside.mp hi
    rw [Node.nodes_of_elements he] at hc
    cases hc
  | @inherited n attr hkv ha =>
    obtain ⟨only, hnodes⟩ := h.nodes_of_inheritedName hn hkv
    obtain ⟨c, hc, hmc⟩ := Node.node_mem_inside.mp hi
    have hattr := (Node.mem_nodes_of_child? ha).1
    rw [hnodes, List.mem_singleton] at hc hattr
    exact hsegment List.mem_cons_self (hattr.trans hc.symm ▸ hmc)
  | @select n base path name hkv hb hbk hname hp =>
    obtain ⟨hpn, hpk⟩ := Node.mem_nodes_of_child? hp
    have hpd := Node.mem_descendants_of_mem_nodes hn hpn
    obtain rfl | hme | hmp | hbehind := h.mem_select_cases hn hkv hb hbk hp hi
    · simp [hbk] at hk
    · simp [hme] at hk
    · obtain rfl | hmp := Node.mem_descendants_iff.mp hmp
      · simp [hpk] at hk
      · obtain ⟨attr, hattr, hma⟩ := Node.node_mem_inside.mp hmp
        have hkind := (h.attrs_apart hpd hpk).2 attr hattr
        exact hsegment (List.mem_cons_of_mem _ (List.mem_map_of_mem
          (List.mem_filter.mpr ⟨hattr, by simp [hkind]⟩))) hma
    · have hgp := Usage.stop_le_of_select h hn hkv hb hbk hp hg
      omega

theorem covers_of_usageAt? {n : Node} (hn : n ∈ root.descendants) (hmn : m ∈ n.descendants)
    {v : Usage} {j : Nat} (hv : usageAt? m.range.start n = some (v, j)) :
    v ∈ Usage.under root ∧ v.element = n ∧ ∃ g, v.segments[j]? = some g ∧
      g.node.range.start ≤ m.range.start ∧ m.range.start < g.node.range.stop := by
  obtain ⟨u, hu, hj⟩ := Option.bind_eq_some_iff.mp hv
  obtain ⟨i, hi, he⟩ := Option.map_eq_some_iff.mp hj
  cases he
  obtain ⟨rfl, -⟩ := Usage.stands_of_of? hu
  have hmem := Usage.mem_under.mpr ⟨hn, hu⟩
  obtain ⟨hlen, htouch, -⟩ := List.findIdx?_eq_some_iff_getElem.mp hi
  rw [Range.touches, Bool.and_eq_true, decide_eq_true_eq, decide_eq_true_eq] at htouch
  have hne := stop_ne_start h hk hlt hmem hmn (List.getElem_mem hlen)
  exact ⟨hmem, rfl, _, List.getElem?_eq_getElem hlen, htouch.1, by omega⟩

section

include hm

theorem usage?_eq_ancestors (hn : NameBegins root m.range.start) :
    usage? root m.range.start = m.ancestors.findSome? (usageAt? m.range.start) := by
  obtain ⟨path, ha, hpath⟩ := around_name h hm (.inr hk) hlt hn
  have hnone : path.findSome? (usageAt? m.range.start) = none := by
    rw [List.findSome?_eq_none_iff]
    intro x hx
    apply usageAt?_eq_none
    obtain hx | hx := hpath x hx <;> simp [hx, Kind.isUsage]
  rw [usage?_eq_findSome?, ha, List.findSome?_append, hnone, Option.none_or]

theorem usage?_of_inSegment (hn : NameBegins root m.range.start) {v : Usage} {j : Nat}
    {g : Segment} (hg : InSegment root v j g m.range.start) :
    usage? root m.range.start = some (v, j) := by
  have hgm := List.mem_of_getElem? hg.segment
  have hgd := Usage.mem_root_of_mem_segments h hg.mem hgm
  have hgk := (Usage.name_of_mem_segments h hg.mem hgm).2
  have hstart := hg.start_le
  have hstop := hg.lt_stop
  have hmg : m ∈ g.node.descendants :=
    h.mem_descendants_of_names hgd hm hgk (.inr hk) hlt hstart hstop
  obtain ⟨path, hpath, hinside⟩ := Node.ancestors_of_mem_descendants hmg
  have hnone : path.findSome? (usageAt? m.range.start) = none := by
    rw [List.findSome?_eq_none_iff]
    intro x hx
    have hxm : x ∈ m.ancestors := hpath ▸ List.mem_append_left _ hx
    obtain ⟨hxd, hmx⟩ := Node.descendants_of_mem_ancestors h.above hm hxm
    rw [Option.eq_none_iff_forall_ne_some]
    -- A segment that is found below `g` would be in it, and start behind it.
    rintro ⟨w, k⟩ hw
    obtain ⟨hwu, rfl, y, hy, hys, hyt⟩ := covers_of_usageAt? h hk hlt hxd hmx hw
    have hym := List.mem_of_getElem? hy
    obtain ⟨hyx, hyk⟩ := Usage.name_of_mem_segments h hwu hym
    have hyg : .node y.node ∈ g.node.inside := by
      obtain he | hi := Node.mem_descendants_iff.mp hyx
      · exact he ▸ hinside _ hx
      · exact Node.inside_subset (Node.mem_descendants_of_mem_inside (hinside _ hx)) _ hi
    have hgy := h.lt_start_of_name hgd hgk hyg hyk.ne_string hyk.ne_dynamic
    have hc := (Range.contains_iff.mp (hg.innermost w hwu y hym hys hyt)).1
    omega
  rw [usage?_eq_ancestors h hm hk hlt hn, hpath, List.findSome?_append, hnone, Option.none_or]
  exact findSome?_ancestors h hg.mem hg.segment hstart hstop

theorem usage?_of_offSegments (hn : NameBegins root m.range.start)
    (hoff : OffSegments root m.range.start) : usage? root m.range.start = none := by
  rw [usage?_eq_ancestors h hm hk hlt hn, List.findSome?_eq_none_iff]
  intro x hx
  obtain ⟨hxd, hmx⟩ := Node.descendants_of_mem_ancestors h.above hm hx
  rw [Option.eq_none_iff_forall_ne_some]
  rintro ⟨w, k⟩ hw
  obtain ⟨hwu, -, y, hy, hcover⟩ := covers_of_usageAt? h hk hlt hxd hmx hw
  exact hoff w hwu y (List.mem_of_getElem? hy) hcover

end

omit hk hlt in
/-- Of the segments that an offset is in, the one that begins last is in all of them. -/
theorem exists_inSegment {o : Nat} (hin : ¬ OffSegments root o) :
    ∃ v j g, InSegment root v j g o := by
  classical
  have hex : ∃ n, ∃ v ∈ Usage.under root, ∃ g ∈ v.segments,
      g.node.range.start + n = o ∧ o < g.node.range.stop := by
    rw [OffSegments] at hin
    push Not at hin
    obtain ⟨v, hv, g, hg, hs, ht⟩ := hin
    exact ⟨o - g.node.range.start, v, hv, g, hg, by omega, ht⟩
  obtain ⟨v, hv, g, hg, hs, ht⟩ := Nat.find_spec hex
  obtain ⟨j, hj⟩ := List.getElem?_of_mem hg
  refine ⟨v, j, g, hv, hj, by omega, ht, fun w hw x hx hxs hxt => ?_⟩
  have hmin := Nat.find_min' hex ⟨w, hw, x, hx, Nat.add_sub_of_le hxs, hxt⟩
  have hgd := Usage.mem_root_of_mem_segments h hv hg
  have hxd := Usage.mem_root_of_mem_segments h hw hx
  have hgk := (Usage.name_of_mem_segments h hv hg).2
  have hxk := (Usage.name_of_mem_segments h hw hx).2
  have hgx : g.node ∈ x.node.descendants :=
    h.mem_descendants_of_names hxd hgd hxk hgk (by omega) (by omega) (by omega)
  exact (h.wellPlaced_of_mem hxd).contains_of_mem hgx

end

/-- At the start of a declared name, the symbol is the one of the first name of the same host that
begins or ends there. -/
theorem declared?_eq {root host m : Node} (h : root.Rooted) {b : Binding}
    (hh : host ∈ root.descendants) (hk : Host.of? host = some ⟨host⟩)
    (hb : b ∈ (Host.mk host).bindings) (hm : Binds host m b)
    (hn : NameBegins root m.range.start) :
    declared? root m.range.start = ((Host.mk host).bindings.find?
      (·.declaration.name.range.touches m.range.start)).map
        fun b => .declared host.pointer b.path := by
  have hmd := Node.descendants_trans hh hm.mem_descendants
  obtain ⟨path, ha, hpath⟩ := around_name h hmd (.inr hm.kind_eq) (hm.range_lt h hh) hn
  have hnil : path.filterMap Host.of? = [] := by
    rw [List.filterMap_eq_nil_iff]
    intro x hx
    rw [Host.of?, if_neg]
    obtain hx | hx := hpath x hx <;> simp [hx]
  have htouch : b.declaration.name.range.touches m.range.start = true := by
    have hr : b.declaration.name.range = m.range := by rw [hm.name_eq]; rfl
    have hlt := hm.range_lt h hh
    rw [hr, Range.touches, Bool.and_eq_true, decide_eq_true_eq, decide_eq_true_eq]
    omega
  have hfound : ((Host.mk host).bindings.find?
      (·.declaration.name.range.touches m.range.start)).isSome = true :=
    List.find?_isSome.mpr ⟨b, hb, htouch⟩
  obtain ⟨c, hc⟩ := Option.isSome_iff_exists.mp hfound
  rw [declared?, ha, List.filterMap_append, hnil, List.nil_append, hm.hosts_eq hk,
    List.findSome?_cons, hc, Option.map_some]

end Cursor

def Segment.isWord (s : Segment) : Bool :=
  s.node.kind == .var || s.node.kind == .attr && Attr.spelling? s.node matches some (.ident _)

theorem Segment.isPlain_of_isWord {s : Segment} (h : s.isWord = true) : s.isPlain = true := by
  rw [isWord, Bool.or_eq_true, Bool.and_eq_true] at h
  rw [isPlain, Bool.or_eq_true, Bool.and_eq_true]
  refine h.imp_right (And.imp_right fun hs => ?_)
  split at hs
  · rename_i he
    rw [he]
  · cases hs

namespace Document

/-- Where a jump from a word leads, the references list the word if a symbol there is a candidate of
it. At a name that no other one runs into, the symbols are those of the innermost segment of a usage
that the name is in. If it is in none, the symbol is that of the first name of the same host that
begins or ends there, which need not be the name that the jump has led to. -/
theorem mem_references_of_definitions (path : Path) (text : String) (file : FileId) (u : Usage)
    (i : Nat) (s : Segment) (t : Target) (hu : u ∈ Usage.under (Document.of path text).root)
    (hs : u.segments[i]? = some s) (hw : s.isWord = true)
    (ht : t ∈ (Document.of path text).definitions file s.node.range.start) :
    let d := Document.of path text
    let o := t.range.start
    let candidates := (Resolution.of d.root u).symbols i
    (Reference.of file d false s.node.range ∈ d.references file o ↔
      ∃ c ∈ d.symbolsAt o, c ∈ candidates) ∧
    ∃ host ∈ d.root.descendants, Host.of? host = some ⟨host⟩ ∧
      (∃ b ∈ (Host.mk host).bindings, b.declaration.name.range = t.range ∧
        .declared host.pointer b.path ∈ candidates) ∧
      (Cursor.NameBegins d.root o →
        (Reference.of file d false s.node.range ∈ d.references file o ↔
          (∃ v j g, Cursor.InSegment d.root v j g o ∧ d.Share u i v j) ∨
          Cursor.OffSegments d.root o ∧ ∃ b ∈ (Host.mk host).bindings.find?
              (·.declaration.name.range.touches o),
            .declared host.pointer b.path ∈ candidates)) := by
  intro d o candidates
  have h : d.root.Rooted := Parse.rooted text
  have hplain := Segment.isPlain_of_isWord hw
  have hsm := List.mem_of_getElem? hs
  obtain ⟨name, hname⟩ := Usage.static_of_isPlain hu hsm hplain
  have hp : d.OnSegment u i s s.node.range.start :=
    ⟨hu, hs, hplain, Nat.le_refl _, Usage.range_lt_of_static h hu hsm hname⟩
  have hlisted := hp.mem_references_iff h (o := o) file
  refine ⟨hlisted, ?_⟩
  rw [hp.definitions h] at ht
  obtain ⟨c, hc, ht⟩ := List.mem_filterMap.mp ht
  obtain ⟨symbol, hsymbol, hc⟩ := List.mem_flatMap.mp hc
  obtain ⟨x, hx, rfl⟩ := Option.map_eq_some_iff.mp ht
  obtain ⟨host, b, hh, hk, hb, rfl, rfl⟩ := Symbol.exists_binding h hc
  obtain ⟨m, hm⟩ := exists_binds hb
  have hmd := Node.descendants_trans hh hm.mem_descendants
  have hlt := hm.range_lt h hh
  have hxm : x.range = m.range :=
    congrArg Pointer.range ((Pointer.eq_of_find? hx).trans hm.name_eq)
  have ho : o = m.range.start := congrArg Range.start hxm
  refine ⟨host, hh, hk, ⟨b, hb, (congrArg Pointer.range (Pointer.eq_of_find? hx)).symm, hsymbol⟩,
    fun hbegins => ?_⟩
  rw [hlisted]
  rw [ho] at hbegins ⊢
  constructor
  · rintro ⟨e, he, hcand⟩
    rw [symbolsAt] at he
    by_cases hoff : Cursor.OffSegments d.root m.range.start
    · right
      rw [Cursor.usage?_of_offSegments h hmd hm.kind_eq hlt hbegins hoff,
        Cursor.declared?_eq h hh hk hb hm hbegins] at he
      obtain ⟨b', hb', rfl⟩ := Option.map_eq_some_iff.mp (Option.mem_toList.mp he)
      exact ⟨hoff, b', hb', hcand⟩
    · left
      obtain ⟨v, j, g, hg⟩ := Cursor.exists_inSegment h hoff
      rw [Cursor.usage?_of_inSegment h hmd hm.kind_eq hlt hbegins hg] at he
      exact ⟨v, j, g, hg, e, hcand, he⟩
  · rw [symbolsAt]
    rintro (⟨v, j, g, hg, hshare⟩ | ⟨hoff, b', hb', hcand⟩)
    · rw [Cursor.usage?_of_inSegment h hmd hm.kind_eq hlt hbegins hg]
      obtain ⟨e, hcand, he⟩ := hshare
      exact ⟨e, he, hcand⟩
    · rw [Cursor.usage?_of_offSegments h hmd hm.kind_eq hlt hbegins hoff,
        Cursor.declared?_eq h hh hk hb hm hbegins]
      exact ⟨_, Option.mem_toList.mpr (Option.mem_map_of_mem _ hb'), hcand⟩

theorem mem_references_of_definitions_let :
    ∃ u ∈ Usage.under (Document.of ⟨"a.nix"⟩ "let x = 1; in x").root, ∃ s ∈ u.segments,
      ∃ t ∈ (Document.of ⟨"a.nix"⟩ "let x = 1; in x").definitions ⟨0⟩ s.node.range.start,
        t.range.start = 4 ∧
        (Reference.of ⟨0⟩ (Document.of ⟨"a.nix"⟩ "let x = 1; in x") false s.node.range ∈
            (Document.of ⟨"a.nix"⟩ "let x = 1; in x").references ⟨0⟩ t.range.start ↔
          ∃ c ∈ (Document.of ⟨"a.nix"⟩ "let x = 1; in x").symbolsAt t.range.start,
            c ∈ (Resolution.of (Document.of ⟨"a.nix"⟩ "let x = 1; in x").root u).symbols 0) ∧
        ∃ c ∈ (Document.of ⟨"a.nix"⟩ "let x = 1; in x").symbolsAt t.range.start,
          c ∈ (Resolution.of (Document.of ⟨"a.nix"⟩ "let x = 1; in x").root u).symbols 0 := by
  have ht : ∃ u ∈ Usage.under (Document.of ⟨"a.nix"⟩ "let x = 1; in x").root,
      ∃ s ∈ u.segments, u.segments[0]? = some s ∧ s.isWord = true ∧
      ∃ t ∈ (Document.of ⟨"a.nix"⟩ "let x = 1; in x").definitions ⟨0⟩ s.node.range.start,
        t.range.start = 4 ∧
        ∃ c ∈ (Document.of ⟨"a.nix"⟩ "let x = 1; in x").symbolsAt t.range.start,
          c ∈ (Resolution.of (Document.of ⟨"a.nix"⟩ "let x = 1; in x").root u).symbols 0 := by
    decide +kernel
  obtain ⟨u, hu, s, hs, hi, hw, t, ht, hstart, hc⟩ := ht
  exact ⟨u, hu, s, hs, t, ht, hstart, (mem_references_of_definitions ⟨"a.nix"⟩ "let x = 1; in x"
    ⟨0⟩ u 0 s t hu hi hw ht).1, hc⟩

/-- From where a jump from a word leads, the references list the word. -/
def JumpsBack (d : Document) (file : FileId) : Prop :=
  ∀ u ∈ Usage.under d.root, ∀ s ∈ u.segments, s.isWord = true →
    ∀ t ∈ d.definitions file s.node.range.start,
      Reference.of file d false s.node.range ∈ d.references file t.range.start

instance (d : Document) (file : FileId) : Decidable (d.JumpsBack file) :=
  inferInstanceAs (Decidable (∀ u ∈ Usage.under d.root, _))

/-- Not so behind another name of the same host, in a computed segment, in an inherited name, and
where a name ends at the braces that a declared name is spelled with. -/
theorem not_jumpsBack :
    ¬ (Document.of ⟨"a.nix"⟩ "z: let inherit (z) \"a\"b; in b").JumpsBack ⟨0⟩ ∧
      ¬ (Document.of ⟨"a.nix"⟩ "let x = 1; in x.$\x7blet y = 1; in y\x7d").JumpsBack ⟨0⟩ ∧
      ¬ (Document.of ⟨"a.nix"⟩ "let inherit x; in x").JumpsBack ⟨0⟩ ∧
      ¬ (Document.of ⟨"a.nix"⟩ "z: let inherit (z) b$\x7b\"a\"\x7d; in a").JumpsBack ⟨0⟩ := by
  refine ⟨?_, ?_, ?_, ?_⟩ <;> decide +kernel

end Document

end NixScope
