import NixScope.Check.Checker
import NixScope.Proofs.DeclarationSites

namespace NixScope

open Syntax

theorem Syntax.Node.pairwise_nodes {n : Node} (h : n.placed.WellPlaced) :
    n.nodes.Pairwise fun a b => a.range.stop ≤ b.range.start := by
  rw [nodes, List.pairwise_filterMap]
  refine (pairwise_elements h).imp ?_
  rintro a b hab c hc d hd
  cases a <;> cases hc
  cases b <;> cases hd
  exact hab

namespace Binding

def start (b : Binding) : Nat := b.declaration.name.range.start

def Within (b : Binding) (n : Node) : Prop :=
  n.range.start ≤ b.start ∧ b.start < b.declaration.name.range.stop ∧
    b.declaration.name.range.stop ≤ n.range.stop

theorem map_name_ofSegments (value : Option Pointer) (before : Option AttributePath)
    (attrs : List Node) :
    (ofSegments value before attrs).map (·.declaration.name) = attrs.map (·.pointer) := by
  induction attrs generalizing before with
  | nil => rfl
  | cons attr attrs ih =>
    cases attrs with
    | nil => rfl
    | cons attr' attrs =>
      simp only [ofSegments, List.map_cons] at ih ⊢
      rw [ih]

theorem pairwise_flatMap {parts : List Node} {f : Node → List Binding}
    (hs : parts.Pairwise fun p q => p.range.stop ≤ q.range.start)
    (hin : ∀ p ∈ parts, ∀ b ∈ f p, b.Within p)
    (hf : ∀ p ∈ parts, (f p).Pairwise fun b c => b.start < c.start) :
    (parts.flatMap f).Pairwise fun b c => b.start < c.start := by
  rw [List.pairwise_flatMap]
  refine ⟨hf, (List.Pairwise.and_mem.mp hs).imp ?_⟩
  rintro p q ⟨hp, hq, hpq⟩ b hb c hc
  obtain ⟨-, hlt, hstop⟩ := hin p hp b hb
  obtain ⟨hstart, -, -⟩ := hin q hq c hc
  omega

theorem pairwise_filterMap {parts : List Node} {f : Node → Option Binding}
    (hs : parts.Pairwise fun p q => p.range.stop ≤ q.range.start)
    (hin : ∀ p ∈ parts, ∀ b, f p = some b → b.Within p) :
    (parts.filterMap f).Pairwise fun b c => b.start < c.start := by
  rw [List.filterMap_eq_flatMap_toList]
  refine pairwise_flatMap hs (fun p hp b hb => hin p hp b (Option.mem_toList.mp hb)) fun p _ => ?_
  cases f p with
  | none => exact .nil
  | some b => exact List.pairwise_singleton _ _

theorem kind_ofSegments {value : Option Pointer} {before : Option AttributePath}
    {attrs : List Node} {b : Binding} (hb : b ∈ ofSegments value before attrs) :
    b.declaration.kind = .binding ∨ b.declaration.kind = .attrPrefix := by
  induction attrs generalizing before with
  | nil => cases hb
  | cons attr attrs ih =>
    cases attrs with
    | nil =>
      rw [ofSegments, List.mem_singleton] at hb
      exact .inl (by rw [hb])
    | cons attr' attrs =>
      simp only [ofSegments] at hb
      obtain rfl | hb := List.mem_cons.mp hb
      · exact .inr rfl
      · exact ih hb

theorem exists_name_of_ofEntry {entry : Node} {b : Binding} (hb : b ∈ ofEntry entry) :
    (∃ m ∈ entry.descendants, b.declaration.name = m.pointer) ∧
      b.declaration.kind ≠ .patternBind := by
  have hself := entry.mem_descendants_self
  rw [ofEntry] at hb
  split at hb
  · obtain ⟨name, hname, hb⟩ := List.mem_filterMap.mp hb
    obtain ⟨m, hm, rfl⟩ := Option.map_eq_some_iff.mp hb
    have hnd := Node.mem_descendants_of_mem_nodes hself (Node.mem_nodes_of_childrenOf hname).1
    exact ⟨⟨m, Node.mem_descendants_of_mem_nodes hnd (Node.mem_nodes_of_child? hm).1, rfl⟩, by simp⟩
  split at hb
  · cases hb
  · rename_i path hpath
    obtain ⟨m, hm, hname, -⟩ := last_ofSegments hb
    have hpd := Node.mem_descendants_of_mem_nodes hself (Node.mem_nodes_of_child? hpath).1
    have hmd := Node.mem_descendants_of_mem_nodes hpd (Node.mem_nodes_of_childrenOf hm).1
    refine ⟨⟨m, hmd, hname⟩, ?_⟩
    obtain hk | hk := kind_ofSegments hb <;> simp [hk]

theorem exists_name_of_part {kind : DeclarationKind} {part : Node} {b : Binding}
    (hb : (Pattern.name? part).bind (ofParam? kind) = some b) :
    (∃ m ∈ part.descendants, b.declaration.name = m.pointer) ∧ b.declaration.kind = kind := by
  obtain ⟨m, hm, hb⟩ := Option.bind_eq_some_iff.mp hb
  obtain ⟨name, -, rfl⟩ := Option.map_eq_some_iff.mp hb
  have hm := (Node.mem_nodes_of_child? hm).1
  exact ⟨⟨m, Node.mem_descendants_of_mem_nodes part.mem_descendants_self hm, rfl⟩, rfl⟩

/-- How a node may list two bindings: as they stand in the text, or an `@` name before a formal. -/
def Listed (b c : Binding) : Prop :=
  b.declaration.kind = .patternBind ∧ c.declaration.kind = .formal ∨
    b.start < c.start ∧ ¬(b.declaration.kind = .formal ∧ c.declaration.kind = .patternBind)

end Binding

section

open Binding

variable {root n : Node} (h : root.Rooted)

include h

theorem Binding.within_of_name {p m : Node} {b : Binding} (hp : p ∈ root.descendants)
    (hm : m ∈ p.descendants) (hname : b.declaration.name = m.pointer)
    (hlt : b.start < b.declaration.name.range.stop) : b.Within p := by
  have hc := Range.contains_iff.mp ((h.wellPlaced_of_mem hp).contains_of_mem hm)
  rw [Within, start, hname] at *
  exact ⟨hc.1, hlt, hc.2⟩

theorem pairwise_ofSegments {path : Node} (hp : path ∈ root.descendants)
    (hk : path.kind = .attrPath) (value : Option Pointer) :
    (ofSegments value none (AttrPath.attrs path)).Pairwise fun b c => b.start < c.start := by
  have hstarts : ((AttrPath.attrs path).map (·.pointer)).Pairwise
      fun a b => a.range.start < b.range.start := by
    rw [List.pairwise_map]
    refine ((List.Pairwise.and_mem.mp (h.attrs_apart hp hk).1).imp ?_).filter _
    rintro a b ⟨ha, -, hab⟩
    have hw : a.range.stop = a.range.start + _ :=
      (h.wellPlaced_of_mem (Node.mem_descendants_of_mem_nodes hp ha)).stop_eq
    have hgoal : a.range.start < b.range.start := by omega
    exact hgoal
  rwa [← map_name_ofSegments value none, List.pairwise_map] at hstarts

theorem pairwise_ofEntry {e : Node} (he : e ∈ root.descendants)
    (hlt : ∀ b ∈ ofEntry e, b.start < b.declaration.name.range.stop) :
    (ofEntry e).Pairwise fun b c => b.start < c.start := by
  by_cases hk : e.kind = .inherit
  · have hentry : ofEntry e = (Inherit.names e).filterMap Binding.ofInherited? := by
      rw [ofEntry, if_pos hk]
    rw [hentry] at hlt ⊢
    refine pairwise_filterMap ((Node.pairwise_nodes (h.wellPlaced_of_mem he)).filter _) ?_
    intro name hname b hb
    have hlt := hlt b (List.mem_filterMap.mpr ⟨name, hname, hb⟩)
    obtain ⟨m, hm, rfl⟩ := Option.map_eq_some_iff.mp hb
    have hnd := Node.mem_descendants_of_mem_nodes he (Node.mem_nodes_of_childrenOf hname).1
    have hmd := Node.mem_descendants_of_mem_nodes name.mem_descendants_self
      (Node.mem_nodes_of_child? hm).1
    exact within_of_name h hnd hmd rfl hlt
  · rw [ofEntry, if_neg hk]
    split
    · exact .nil
    · rename_i path hpath
      obtain ⟨hp, hpk⟩ := Node.mem_nodes_of_child? hpath
      exact pairwise_ofSegments h (Node.mem_descendants_of_mem_nodes he hp) hpk _

variable (hn : n ∈ root.descendants)

include hn

theorem Binding.start_lt_stop {b : Binding} (hb : b ∈ (Host.mk n).bindings) :
    b.start < b.declaration.name.range.stop := by
  obtain ⟨m, hm, hw, hname, -⟩ := namedIn_of_mem h hn hb
  rw [start, hname]
  exact h.range_lt (Node.descendants_trans hn hm) hw

theorem pairwise_entries (hb : (Host.mk n).bindings = n.entries.flatMap ofEntry) :
    (n.entries.flatMap ofEntry).Pairwise fun b c => b.start < c.start := by
  have hentry : ∀ e ∈ n.entries, e ∈ root.descendants := fun e he =>
    Node.mem_descendants_of_mem_nodes hn (List.mem_filter.mp he).1
  have hlt : ∀ e ∈ n.entries, ∀ b ∈ ofEntry e, b.start < b.declaration.name.range.stop :=
    fun e he b hbe => start_lt_stop h hn (hb ▸ List.mem_flatMap.mpr ⟨e, he, hbe⟩)
  refine pairwise_flatMap ((Node.pairwise_nodes (h.wellPlaced_of_mem hn)).filter _) ?_
    fun e he => pairwise_ofEntry h (hentry e he) (hlt e he)
  intro e he b hbe
  obtain ⟨⟨m, hm, hname⟩, -⟩ := exists_name_of_ofEntry hbe
  exact within_of_name h (hentry e he) hm hname (hlt e he b hbe)

theorem pairwise_parts {param : Node} (hp : param ∈ root.descendants) {kind : Kind}
    {declared : DeclarationKind}
    (hb : ∀ b ∈ (param.childrenOf kind).filterMap
      (fun part => (Pattern.name? part).bind (ofParam? declared)), b ∈ (Host.mk n).bindings) :
    ((param.childrenOf kind).filterMap
      (fun part => (Pattern.name? part).bind (ofParam? declared))).Pairwise
        fun b c => b.start < c.start := by
  refine pairwise_filterMap ((Node.pairwise_nodes (h.wellPlaced_of_mem hp)).filter _) ?_
  intro part hpart b hbp
  obtain ⟨⟨m, hm, hname⟩, -⟩ := exists_name_of_part hbp
  have hpd := Node.mem_descendants_of_mem_nodes hp (Node.mem_nodes_of_childrenOf hpart).1
  exact within_of_name h hpd hm hname
    (start_lt_stop h hn (hb b (List.mem_filterMap.mpr ⟨part, hpart, hbp⟩)))

/-- Two bindings of a node are listed as they stand in the text, or the first one is an `@` name and
the other one a formal. -/
theorem Host.pairwise_bindings : (Host.mk n).bindings.Pairwise Listed := by
  by_cases hk : n.kind = .lambda
  · cases hp : Lambda.param? n with
    | none =>
      have hb : (Host.mk n).bindings = [] := by simp [bindings, hk, hp]
      rw [hb]
      exact .nil
    | some param =>
      have hb : (Host.mk n).bindings = ofParameter param := by simp [bindings, hk, hp]
      have hpd := Node.mem_descendants_of_mem_nodes hn (List.mem_of_find?_eq_some hp)
      rw [hb]
      by_cases hpk : param.kind = .paramName
      · rw [ofParameter, if_pos hpk]
        cases ofParam? .parameter param with
        | none => exact .nil
        | some b => exact List.pairwise_singleton _ _
      · rw [ofParameter, if_neg hpk] at hb ⊢
        have hkinds : ∀ {kind : DeclarationKind} {parts : List Node}, ∀ b ∈ parts.filterMap
            (fun part => (Pattern.name? part).bind (ofParam? kind)), b.declaration.kind = kind := by
          intro kind parts b hb
          obtain ⟨part, -, hb⟩ := List.mem_filterMap.mp hb
          exact (exists_name_of_part hb).2
        rw [List.pairwise_append]
        refine ⟨?_, ?_, fun b hbind c hformal => .inl ⟨hkinds b hbind, hkinds c hformal⟩⟩
        · refine (List.Pairwise.and_mem.mp (pairwise_parts h hn hpd
            fun b hbind => hb ▸ List.mem_append_left _ hbind)).imp ?_
          rintro b c ⟨hbind, -, hbc⟩
          exact .inr ⟨hbc, by simp [hkinds b hbind]⟩
        · refine (List.Pairwise.and_mem.mp (pairwise_parts h hn hpd
            fun b hformal => hb ▸ List.mem_append_right _ hformal)).imp ?_
          rintro b c ⟨-, hformal, hbc⟩
          exact .inr ⟨hbc, by simp [hkinds c hformal]⟩
  · have hb : (Host.mk n).bindings = n.entries.flatMap ofEntry := by simp [bindings, hk]
    rw [hb]
    refine (List.Pairwise.and_mem.mp (pairwise_entries h hn hb)).imp ?_
    rintro b c ⟨-, hc, hbc⟩
    obtain ⟨e, -, hc⟩ := List.mem_flatMap.mp hc
    exact .inr ⟨hbc, fun hk => (exists_name_of_ofEntry hc).2 hk.2⟩

theorem Host.pairwise_bindings_iff :
    (Host.mk n).bindings.Pairwise (fun b c => b.start < c.start) ↔
      ∀ b ∈ (Host.mk n).bindings, ∀ c ∈ (Host.mk n).bindings,
        b.declaration.kind = .patternBind → c.declaration.kind = .formal → b.start < c.start := by
  have hlisted := Host.pairwise_bindings h hn
  constructor
  · intro hs
    -- Both orders are asked for at once, so that it does not matter which one is listed first.
    let Ordered (b c : Binding) : Prop :=
      (b.declaration.kind = .patternBind → c.declaration.kind = .formal → b.start < c.start) ∧
        (c.declaration.kind = .patternBind → b.declaration.kind = .formal → c.start < b.start)
    have hsymm : Std.Symm Ordered := ⟨fun b c hbc => ⟨hbc.2, hbc.1⟩⟩
    have hself : ∀ b ∈ (Host.mk n).bindings, Ordered b b := by
      intro b _
      constructor <;> intro hb hf <;> simp [hb] at hf
    have hpair : (Host.mk n).bindings.Pairwise Ordered := by
      refine (hlisted.and hs).imp ?_
      rintro b c ⟨⟨hb, hc⟩ | ⟨-, hnot⟩, hbc⟩
      · exact ⟨fun _ _ => hbc, fun hc' => by simp [hc] at hc'⟩
      · exact ⟨fun _ _ => hbc, fun hc hb => absurd ⟨hb, hc⟩ hnot⟩
    intro b hb c hc
    exact (List.Pairwise.forall_of_forall hself hpair hb hc).1
  · intro hs
    refine (List.Pairwise.and_mem.mp hlisted).imp ?_
    rintro b c ⟨hb, hc, ⟨hbk, hck⟩ | ⟨hbc, -⟩⟩
    · exact hs b hb c hc hbk hck
    · exact hbc

end

namespace Checks

theorem previous_lt {seen names : List (String × Range)}
    (hseen : ∀ s ∈ seen, ∀ t ∈ names, s.2.start < t.2.start)
    (hs : names.Pairwise fun s t => s.2.start < t.2.start) {range previous : Range}
    {name : Attribute} (hf : (range, Finding.duplicate name previous) ∈ repeated seen names) :
    previous.start < range.start := by
  induction names generalizing seen with
  | nil => cases hf
  | cons t names ih =>
    obtain ⟨hfirst, hrest⟩ := List.pairwise_cons.mp hs
    have hseen' : ∀ s ∈ seen, ∀ u ∈ names, s.2.start < u.2.start := fun s hs u hu =>
      hseen s hs u (List.mem_cons_of_mem _ hu)
    rw [repeated] at hf
    split at hf
    · rename_i first hfound
      obtain he | hf := List.mem_cons.mp hf
      · cases he
        obtain ⟨before, after, rfl, -⟩ := List.lookup_eq_some_iff.mp hfound
        exact hseen _ (List.mem_append_right _ List.mem_cons_self) _ List.mem_cons_self
      · exact ih hseen' hrest hf
    · refine ih ?_ hrest hf
      intro s hs u hu
      obtain rfl | hs := List.mem_cons.mp hs
      · exact hfirst u hu
      · exact hseen' s hs u hu

theorem range_of_ownName? {b : Binding} {name : String} {range : Range}
    (h : ownName? b = some (name, range)) : range = b.declaration.name.range := by
  rw [ownName?] at h
  split at h
  · split at h
    · cases h
    · cases h
      rfl
  · cases h

end Checks

/-- A node lists its bindings in the order of the text exactly if each `@` name of its pattern
stands in front of all formals. Then the earlier place of a name that it binds twice is the one that
is reported as the previous binding. -/
theorem Host.bindings_in_order_iff (text : String) (host : Host)
    (hh : host ∈ (parse text).root.descendants.filterMap Host.of?) :
    (host.bindings.Pairwise (fun b c => b.start < c.start) ↔
      ∀ b ∈ host.bindings, ∀ c ∈ host.bindings,
        b.declaration.kind = .patternBind → c.declaration.kind = .formal → b.start < c.start) ∧
    (host.bindings.Pairwise (fun b c => b.start < c.start) → ∀ range name previous,
      (range, Finding.duplicate name previous) ∈
        Checks.repeated [] (host.bindings.filterMap Checks.ownName?) →
      previous.start < range.start) := by
  obtain ⟨n, hn, hof⟩ := List.mem_filterMap.mp hh
  obtain ⟨-, hof⟩ := Option.ite_none_right_eq_some.mp hof
  cases hof
  refine ⟨Host.pairwise_bindings_iff (Parse.rooted text) hn, fun hs range name previous hf => ?_⟩
  refine Checks.previous_lt (by simp) ?_ hf
  rw [List.pairwise_filterMap]
  refine hs.imp ?_
  rintro b c hbc ⟨_, r⟩ hr ⟨_, q⟩ hq
  rw [Checks.range_of_ownName? hr, Checks.range_of_ownName? hq]
  exact hbc

theorem Host.bindings_in_order_iff_at :
    ∃ host ∈ (parse "a@{ a }: a").root.descendants.filterMap Host.of?,
      host.bindings.Pairwise (fun b c => b.start < c.start) ∧
        (⟨4, 5⟩, Finding.duplicate (.static "a") ⟨0, 1⟩) ∈
          Checks.repeated [] (host.bindings.filterMap Checks.ownName?) := by
  have hs : ((parse "a@{ a }: a").root.descendants.filterMap Host.of?).any (fun host =>
      decide (∀ b ∈ host.bindings, ∀ c ∈ host.bindings,
        b.declaration.kind = .patternBind → c.declaration.kind = .formal → b.start < c.start) &&
      decide ((⟨4, 5⟩, Finding.duplicate (.static "a") ⟨0, 1⟩) ∈
        Checks.repeated [] (host.bindings.filterMap Checks.ownName?))) = true := by
    decide +kernel
  obtain ⟨host, hh, hs⟩ := List.any_eq_true.mp hs
  rw [Bool.and_eq_true, decide_eq_true_eq, decide_eq_true_eq] at hs
  exact ⟨host, hh, (Host.bindings_in_order_iff _ host hh).1.mpr hs.1, hs.2⟩

/-- Behind the braces, the `@` name is listed first although it stands last, and the formal is
reported to come again. -/
theorem Host.not_bindings_in_order :
    (∃ host ∈ (parse "{ a }@a: a").root.descendants.filterMap Host.of?,
      ¬host.bindings.Pairwise (fun b c => b.start < c.start)) ∧
    Checks.duplicateBindings (parse "{ a }@a: a").root =
      [(⟨2, 3⟩, Finding.duplicate (.static "a") ⟨6, 7⟩)] := by
  decide +kernel

end NixScope
