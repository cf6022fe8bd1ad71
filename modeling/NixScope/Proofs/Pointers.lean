import NixScope.Proofs.Placement
import NixScope.Proofs.Tight
import NixScope.Syntax.Pointer

namespace NixScope.Syntax

namespace PlacedTree

def around (r : Range) (ns : List Node) : List Node := ns.filter (·.range.contains r)

theorem around_eq_nil {r : Range} {t : PlacedTree} (h : WellPlaced t) (above : List Spot)
    (hr : t.range.contains r = false) : around r (nodes above t) = [] := by
  rw [around, List.filter_eq_nil_iff]
  intro n hn hc
  have hb := Range.contains_iff.mp (h.contains_of_mem hn)
  have hc := Range.contains_iff.mp hc
  rw [← Bool.not_eq_true, Range.contains_iff] at hr
  omega

theorem around_eq_nil_of_spans {r : Range} (hr : r.start < r.stop) {start stop : Nat}
    {ts : List PlacedTree} (hs : Spans start ts stop) (h : ∀ t ∈ ts, WellPlaced t)
    (above : List Spot) (hstart : r.stop ≤ start) : around r (ts.flatMap (nodes above)) = [] := by
  rw [around, List.filter_eq_nil_iff]
  intro n hn hc
  obtain ⟨t, ht, hn⟩ := List.mem_flatMap.mp hn
  have hb := Range.contains_iff.mp ((h t ht).contains_of_mem hn)
  have hm := hs.mem h t ht
  have hc := Range.contains_iff.mp hc
  omega

theorem around_cons {r : Range} {m : Mark} {ts : List PlacedTree} (above : List Spot)
    (hc : m.range.contains r = true) :
    around r (nodes above (.branch m ts)) =
      ⟨⟨m, ts⟩, above⟩ :: around r (ts.flatMap (nodes (⟨m, ts⟩ :: above))) := by
  have hn : (⟨⟨m, ts⟩, above⟩ : Node).range.contains r = true := hc
  rw [nodes_branch, around, List.filter_cons, if_pos hn]
  rfl

theorem around_append (r : Range) (ns ms : List Node) :
    around r (ns ++ ms) = around r ns ++ around r ms :=
  List.filter_append ..

/-- The first node has the second in it, and if both have one range, a higher rank. -/
def Encloses (a b : Node) : Prop :=
  a.range.contains b.range = true ∧ (a.range = b.range → b.kind.rank < a.kind.rank)

theorem pairwise_of_spans {r : Range} (hr : r.start < r.stop) {start stop : Nat}
    {ts : List PlacedTree} (hs : Spans start ts stop) (h : ∀ t ∈ ts, WellPlaced t)
    (above : List Spot) (ih : ∀ t ∈ ts, (around r (nodes above t)).Pairwise Encloses) :
    (around r (ts.flatMap (nodes above))).Pairwise Encloses := by
  induction hs with
  | nil start => exact .nil
  | @cons t ts stop hs ihs =>
    have hts : ∀ u ∈ ts, WellPlaced u := fun u hu => h u (List.mem_cons_of_mem _ hu)
    rw [List.flatMap_cons, around_append]
    by_cases hc : t.range.contains r = true
    · rw [around_eq_nil_of_spans hr hs hts above (Range.contains_iff.mp hc).2, List.append_nil]
      exact ih t List.mem_cons_self
    · rw [around_eq_nil (h t List.mem_cons_self) above (Bool.eq_false_iff.mpr hc), List.nil_append]
      exact ihs hts fun u hu => ih u (List.mem_cons_of_mem _ hu)

theorem rank_lt_of_mem {r : Range} (hr : r.start < r.stop) {m : Mark} {ts : List PlacedTree}
    (h : WellPlaced (.branch m ts)) (htight : Tree.Tight m.kind (ts.map tree)) {t : PlacedTree}
    (ht : t ∈ ts) {above : List Spot} {b : Node} (hb : b ∈ nodes above t)
    (hbr : b.range.contains r = true) (hp : (around r (nodes above t)).Pairwise Encloses)
    (he : m.range = b.range) : b.kind.rank < m.kind.rank := by
  obtain ⟨hs, hw⟩ := h.children
  cases t with
  | leaf t => simp at hb
  | branch m' us =>
    have hm := hs.mem hw _ ht
    have hbm := Range.contains_iff.mp ((hw _ ht).contains_of_mem hb)
    have hbr' := Range.contains_iff.mp hbr
    have hstop := h.stop_eq
    have hstop' := (hw _ ht).stop_eq
    rw [tree_branch, Tree.width_branch, range_branch] at hstop hstop'
    rw [range_branch] at hm hbm
    have hstart := congrArg Range.start he
    have hend := congrArg Range.stop he
    have hmem : .branch m'.kind (us.map tree) ∈ ts.map tree := by
      rw [← tree_branch]
      exact List.mem_map_of_mem ht
    have hrank : m'.kind.rank < m.kind.rank := htight _ _ hmem (by omega) (by omega)
    have hc : m'.range.contains r = true := Range.contains_iff.mpr (by omega)
    rw [nodes_branch, List.mem_cons] at hb
    obtain rfl | hb := hb
    · exact hrank
    · rw [around_cons above hc, List.pairwise_cons] at hp
      obtain ⟨-, hlt⟩ := hp.1 b (List.mem_filter.mpr ⟨hb, hbr⟩)
      have heq : m'.range = b.range :=
        Range.contains_antisymm (Range.contains_iff.mpr hbm)
          (Range.contains_iff.mpr (by omega))
      exact Nat.lt_trans (hlt heq) hrank

/-- Of the nodes around a range, each encloses those that come after it. -/
theorem around_pairwise {r : Range} (hr : r.start < r.stop) {t : PlacedTree} (h : WellPlaced t)
    (ht : t.tree.Everywhere Tree.Tight) (above : List Spot) :
    (around r (nodes above t)).Pairwise Encloses := by
  induction h generalizing above with
  | leaf h => exact .nil
  | @branch m ts hs h ih =>
    have hp := WellPlaced.branch hs h
    rw [tree_branch] at ht
    cases ht with
    | branch htight hall =>
    have hall : ∀ t ∈ ts, t.tree.Everywhere Tree.Tight :=
      fun t ht => hall t.tree (List.mem_map_of_mem ht)
    have ih : ∀ t ∈ ts, (around r (nodes (⟨m, ts⟩ :: above) t)).Pairwise Encloses :=
      fun t ht => ih t ht (hall t ht) _
    by_cases hc : m.range.contains r = true
    · rw [around_cons above hc, List.pairwise_cons]
      refine ⟨fun b hb => ?_, pairwise_of_spans hr hs h _ ih⟩
      obtain ⟨hb, hbr⟩ := List.mem_filter.mp hb
      obtain ⟨t, ht, hb⟩ := List.mem_flatMap.mp hb
      have hbt := Range.contains_iff.mp ((h t ht).contains_of_mem hb)
      have htm := hs.mem h t ht
      refine ⟨Range.contains_iff.mpr ⟨?_, ?_⟩, fun he => ?_⟩
      · exact Nat.le_trans htm.1 hbt.1
      · exact Nat.le_trans hbt.2 htm.2
      · exact rank_lt_of_mem hr hp htight ht hb hbr (ih t ht) he
    · rw [around_eq_nil hp above (Bool.eq_false_iff.mpr hc)]
      exact .nil

end PlacedTree

namespace Pointer

open PlacedTree

/-- The search gives the last of the nested nodes `ns` inside of `above`: going up from it leads to
all the others. -/
def Finds (above : List Spot) (ns : List Node) : Option Node → Prop
  | none => ns = []
  | some n => ∃ chain, n.ancestors = chain ++ Node.trail above ∧ ns = chain.reverse

theorem finds_innermostOf {r : Range} (hr : r.start < r.stop) {above : List Spot} {start stop : Nat}
    {ts : List PlacedTree} (hs : Spans start ts stop) (h : ∀ t ∈ ts, WellPlaced t)
    (ih : ∀ t ∈ ts, t.range.contains r = true →
      Finds above (around r (nodes above t)) (innermost r above t)) (isFirst : Bool) :
    Finds above (around r (ts.flatMap (nodes above))) (innermostOf r above isFirst ts) := by
  induction hs generalizing isFirst with
  | nil start => exact rfl
  | @cons t ts stop hs ihs =>
    have ht := h t List.mem_cons_self
    have hts : ∀ u ∈ ts, WellPlaced u := fun u hu => h u (List.mem_cons_of_mem _ hu)
    have he : enters r isFirst t ts = t.range.contains r := by simp [enters, hr]
    rw [innermostOf, he, List.flatMap_cons, around_append]
    by_cases hc : t.range.contains r = true
    · have hnil := around_eq_nil_of_spans hr hs hts above (Range.contains_iff.mp hc).2
      rw [if_pos hc, hnil, List.append_nil]
      exact ih t List.mem_cons_self hc
    · have hnil := around_eq_nil ht above (by simpa using hc)
      rw [if_neg hc, hnil, List.nil_append]
      exact ihs hts (fun u hu => ih u (List.mem_cons_of_mem _ hu)) false

theorem finds_getD {above : List Spot} {n : Node} {ns : List Node} {o : Option Node}
    (hn : n.above = above) (h : Finds (n.toSpot :: above) ns o) :
    Finds above (n :: ns) (some (o.getD n)) := by
  cases o with
  | none =>
    have hns : ns = [] := h
    subst hns hn
    exact ⟨[n], rfl, rfl⟩
  | some c =>
    obtain ⟨chain, hc, hns⟩ := h
    subst hn
    refine ⟨chain ++ [n], ?_, ?_⟩
    · rw [Option.getD_some, hc, Node.trail, List.append_assoc]
      rfl
    · rw [hns, List.reverse_append]
      rfl

theorem finds_innermost {r : Range} (hr : r.start < r.stop) {t : PlacedTree} (h : WellPlaced t)
    (above : List Spot) (hc : t.range.contains r = true) :
    Finds above (around r (nodes above t)) (innermost r above t) := by
  induction h generalizing above with
  | leaf h => exact rfl
  | @branch m ts hs h ih =>
    rw [around_cons above hc, innermost]
    exact finds_getD rfl (finds_innermostOf hr hs h (fun t ht => ih t ht _) true)

/-- The nodes around a range are the innermost one and the nodes above it. -/
theorem around_descendants {r : Range} (hr : r.start < r.stop) {root : Node}
    (h : root.placed.WellPlaced) (ha : root.above = []) :
    around r root.descendants = (((covering? r root).map Node.ancestors).getD []).reverse := by
  rw [descendants_eq]
  by_cases hc : root.range.contains r = true
  · have hf := finds_innermost hr h root.above hc
    have he : covering? r root = innermost r root.above root.placed := if_pos hc
    rw [he]
    generalize innermost r root.above root.placed = o at hf
    cases o with
    | none => exact hf
    | some n =>
      obtain ⟨chain, hn, hns⟩ := hf
      rw [ha, Node.trail, List.append_nil] at hn
      rw [hns, Option.map_some, Option.getD_some, hn]
  · have hc' : root.placed.range.contains r = false := Bool.eq_false_iff.mpr hc
    rw [around_eq_nil h _ hc', covering?, if_neg hc]
    rfl

theorem pointer_eq_iff {n : Node} {p : Pointer} :
    n.pointer = p ↔ n.kind = p.kind ∧ n.range = p.range := by
  constructor
  · rintro rfl
    exact ⟨rfl, rfl⟩
  · rintro ⟨hk, hr⟩
    obtain ⟨k, r⟩ := p
    exact congr (congrArg Pointer.mk hk) hr

theorem contains_of_pointer {n : Node} {p : Pointer} (h : n.pointer = p) :
    n.range.contains p.range = true := by
  rw [(pointer_eq_iff.mp h).2, Range.contains_iff]
  exact ⟨Nat.le_refl _, Nat.le_refl _⟩

theorem kind_ne_of_encloses {n b : Node} {p : Pointer} (hn : n.pointer = p) (h : Encloses n b)
    (hb : b.range.contains p.range = true) : b.range = p.range ∧ b.kind ≠ p.kind := by
  obtain ⟨hk, hrange⟩ := pointer_eq_iff.mp hn
  obtain ⟨hnb, hlt⟩ := h
  have hbr := Range.contains_antisymm hb (hrange ▸ hnb)
  refine ⟨hbr, fun hbk => ?_⟩
  have hlt := hlt (by rw [hrange, hbr])
  rw [hk, hbk] at hlt
  omega

section

variable {p : Pointer} (hr : p.range.start < p.range.stop) {root : Node}
  (h : root.placed.WellPlaced) (ht : root.tree.Everywhere Tree.Tight) (ha : root.above = [])

include hr h ht

theorem length_filter_pointer_le : (root.descendants.filter (·.pointer == p)).length ≤ 1 := by
  have hp : (around p.range root.descendants).Pairwise Encloses :=
    around_pairwise hr h ht root.above
  have he : root.descendants.filter (·.pointer == p) =
      (around p.range root.descendants).filter (·.pointer == p) := by
    rw [around, List.filter_filter]
    apply List.filter_congr
    intro n _
    by_cases hn : n.pointer = p
    · simp [hn, contains_of_pointer hn]
    · simp [hn]
  have hf := hp.filter (·.pointer == p)
  rw [← he] at hf
  have hall : ∀ n ∈ root.descendants.filter (·.pointer == p), n.pointer = p :=
    fun n hn => by simpa using (List.mem_filter.mp hn).2
  generalize root.descendants.filter (·.pointer == p) = ns at hf hall
  match ns with
  | [] => exact Nat.zero_le _
  | [n] => exact Nat.le_refl _
  | a :: b :: ns =>
    have hb := hall b (by simp)
    have hab : Encloses a b := (List.pairwise_cons.mp hf).1 b (by simp)
    obtain ⟨-, hk⟩ := kind_ne_of_encloses (hall a (by simp)) hab (contains_of_pointer hb)
    exact absurd (pointer_eq_iff.mp hb).1 hk

include ha

theorem find?_eq_some {n : Node} :
    p.find? root = some n ↔ n ∈ root.descendants ∧ n.pointer = p := by
  have hp : (around p.range root.descendants).Pairwise Encloses :=
    around_pairwise hr h ht root.above
  have hf : p.find? root = ((around p.range root.descendants).reverse.takeWhile
      (·.range == p.range)).find? (·.kind == p.kind) := by
    rw [around_descendants hr h ha, List.reverse_reverse, find?]
    cases covering? p.range root <;> rfl
  rw [hf]
  constructor
  · intro hn
    have hm := List.mem_of_find?_eq_some hn
    have hk : n.kind = p.kind := by simpa using List.find?_some hn
    have hrange : n.range = p.range := by
      simpa using List.all_eq_true.mp List.all_takeWhile n hm
    have hmem := List.mem_reverse.mp ((List.takeWhile_sublist _).subset hm)
    exact ⟨(List.mem_filter.mp hmem).1, pointer_eq_iff.mpr ⟨hk, hrange⟩⟩
  · rintro ⟨hn, hnp⟩
    obtain ⟨hk, hrange⟩ := pointer_eq_iff.mp hnp
    have hmem : n ∈ around p.range root.descendants :=
      List.mem_filter.mpr ⟨hn, contains_of_pointer hnp⟩
    -- Nodes further in have the range as well, but other kinds.
    obtain ⟨as, bs, hsplit⟩ := List.append_of_mem hmem
    have hbs : ∀ b ∈ bs, b.range = p.range ∧ b.kind ≠ p.kind := by
      intro b hb
      have hbm : b ∈ around p.range root.descendants := by simp [hsplit, hb]
      rw [hsplit, List.pairwise_append, List.pairwise_cons] at hp
      exact kind_ne_of_encloses hnp (hp.2.1.1 b hb) (List.mem_filter.mp hbm).2
    rw [hsplit, List.reverse_append, List.reverse_cons, List.append_assoc,
      List.takeWhile_append_of_pos, List.find?_append, List.find?_eq_none.mpr]
    · simp [hrange, hk]
    · intro b hb
      simpa using (hbs b (List.mem_reverse.mp hb)).2
    · intro b hb
      simpa using (hbs b (List.mem_reverse.mp hb)).1

end

end Pointer

/-- A pointer to a range with bytes in it finds the one node of its kind and range, if there is one,
in the tree of any text. Every node that is not empty is found again by its own pointer. -/
theorem pointer_exact (text : String) (p : Pointer) (h : p.range.start < p.range.stop) :
    ((parse text).root.descendants.filter (·.pointer == p)).length ≤ 1 ∧
      (∀ n, p.find? (parse text).root = some n ↔
        n ∈ (parse text).root.descendants ∧ n.pointer = p) ∧
      ∀ n ∈ (parse text).root.descendants, n.range.start < n.range.stop →
        n.pointer.find? (parse text).root = some n := by
  have hw : (parse text).root.placed.WellPlaced := Node.root_wellPlaced ..
  have ht := Parse.everywhere_tight text
  refine ⟨Pointer.length_filter_pointer_le h hw ht, fun n => Pointer.find?_eq_some h hw ht rfl, ?_⟩
  intro n hn hr
  exact (Pointer.find?_eq_some hr hw ht rfl).mpr ⟨hn, rfl⟩

theorem pointer_exact_nested :
    (⟨.attr, ⟨4, 5⟩⟩ : Pointer).range.start < (⟨.attr, ⟨4, 5⟩⟩ : Pointer).range.stop ∧
      ∃ n ∈ (parse "let a = 1; in a").root.descendants, n.pointer = ⟨.attr, ⟨4, 5⟩⟩ ∧
        Pointer.find? ⟨.attr, ⟨4, 5⟩⟩ (parse "let a = 1; in a").root = some n := by
  have hr : (⟨.attr, ⟨4, 5⟩⟩ : Pointer).range.start < (⟨.attr, ⟨4, 5⟩⟩ : Pointer).range.stop := by
    decide
  have hs : (Pointer.find? ⟨.attr, ⟨4, 5⟩⟩ (parse "let a = 1; in a").root).isSome = true := by
    decide +kernel
  obtain ⟨n, hn⟩ := Option.isSome_iff_exists.mp hs
  obtain ⟨hm, hp⟩ := ((pointer_exact "let a = 1; in a" ⟨.attr, ⟨4, 5⟩⟩ hr).2.1 n).mp hn
  exact ⟨hr, n, hm, hp, hn⟩

end NixScope.Syntax
