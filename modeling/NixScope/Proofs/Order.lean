import Mathlib.Data.List.Pairwise
import NixScope.Proofs.Rooted

namespace NixScope.Syntax

def Node.inside (n : Node) : List Element := PlacedTree.walkAll (n.toSpot :: n.above) n.children

/-- The second element is inside of the first one or stands behind it. -/
inductive Element.Precedes : Element → Element → Prop
  | around {n : Node} {e : Element} (h : e ∈ n.inside) : Precedes (.node n) e
  | behind {a b : Element} (h : a.range.stop ≤ b.range.start) : Precedes a b

namespace PlacedTree

@[simp] theorem range_element (above : List Spot) (t : PlacedTree) :
    (element above t).range = range t := by
  cases t <;> rfl

theorem WellPlaced.contains_of_mem_walk {t : PlacedTree} (h : WellPlaced t) {above : List Spot}
    {e : Element} (he : e ∈ walk above t) : (range t).contains e.range = true := by
  induction h generalizing above with
  | leaf h =>
    rw [walk, List.mem_singleton] at he
    subst he
    exact Range.contains_iff.mpr ⟨Nat.le_refl _, Nat.le_refl _⟩
  | @branch m ts hs h ih =>
    rw [walk, List.mem_cons, walkAll_eq, List.mem_flatMap] at he
    obtain rfl | ⟨t, ht, he⟩ := he
    · exact Range.contains_iff.mpr ⟨Nat.le_refl _, Nat.le_refl _⟩
    · have hc := Range.contains_iff.mp (ih t ht he)
      have hm := hs.mem h t ht
      rw [Range.contains_iff, range_branch]
      omega

theorem Spans.pairwise {start stop : Nat} {ts : List PlacedTree} (h : Spans start ts stop)
    (hw : ∀ t ∈ ts, WellPlaced t) : ts.Pairwise fun t u => (range t).stop ≤ (range u).start := by
  induction h with
  | nil start => exact .nil
  | cons h ih =>
    have hws := fun t ht => hw t (List.mem_cons_of_mem _ ht)
    exact List.pairwise_cons.mpr ⟨fun u hu => (h.mem hws u hu).1, ih hws⟩

theorem WellPlaced.pairwise_walk {t : PlacedTree} (h : WellPlaced t) (above : List Spot) :
    (walk above t).Pairwise Element.Precedes := by
  induction h generalizing above with
  | leaf h => exact List.pairwise_singleton _ _
  | @branch m ts hs h ih =>
    rw [walk, List.pairwise_cons]
    refine ⟨fun e he => .around he, ?_⟩
    rw [walkAll_eq, List.pairwise_flatMap]
    refine ⟨fun t ht => ih t ht _, ?_⟩
    refine (List.Pairwise.and_mem.mp (hs.pairwise h)).imp ?_
    rintro t u ⟨ht, hu, hle⟩ a ha b hb
    have hta := Range.contains_iff.mp ((h t ht).contains_of_mem_walk ha)
    have hub := Range.contains_iff.mp ((h u hu).contains_of_mem_walk hb)
    exact .behind (by omega)

theorem Spans.start_eq {start stop : Nat} {t : PlacedTree} {ts : List PlacedTree}
    (h : Spans start (t :: ts) stop) : (range t).start = start := by
  cases h
  rfl

theorem Spans.exists_mem {start stop o : Nat} {ts : List PlacedTree} (h : Spans start ts stop)
    (hl : start ≤ o) (hr : o < stop) : ∃ t ∈ ts, (range t).start ≤ o ∧ o < (range t).stop := by
  induction h with
  | nil start => omega
  | @cons t ts stop h ih =>
    by_cases ho : o < (range t).stop
    · exact ⟨t, List.mem_cons_self, hl, ho⟩
    · obtain ⟨u, hu, huo⟩ := ih (Nat.le_of_not_lt ho) hr
      exact ⟨u, List.mem_cons_of_mem _ hu, huo⟩

/-- Every offset in a tree is in one of its tokens. -/
theorem WellPlaced.exists_leaf {t : PlacedTree} (h : WellPlaced t) {o : Nat}
    (hl : (range t).start ≤ o) (hr : o < (range t).stop) (above : List Spot) :
    ∃ l, .leaf l ∈ walk above t ∧ l.range.start ≤ o ∧ o < l.range.stop := by
  induction h generalizing above with
  | @leaf t h => exact ⟨⟨t, above⟩, List.mem_singleton.mpr rfl, hl, hr⟩
  | @branch m ts hs h ih =>
    obtain ⟨t, ht, hto⟩ := hs.exists_mem hl hr
    obtain ⟨l, hm, hlo⟩ := ih t ht hto.1 hto.2 (⟨m, ts⟩ :: above)
    refine ⟨l, ?_, hlo⟩
    rw [walk, walkAll_eq]
    exact List.mem_cons_of_mem _ (List.mem_flatMap.mpr ⟨t, ht, hm⟩)

end PlacedTree

namespace Node

variable {n m : Node}

theorem walk_eq (n : Node) : n.walk = .node n :: n.inside := rfl

theorem node_mem_walk : .node m ∈ n.walk ↔ m ∈ n.descendants := by
  rw [descendants, List.mem_filterMap]
  constructor
  · exact fun h => ⟨_, h, rfl⟩
  · rintro ⟨e, he, hm⟩
    cases e with
    | node k =>
      cases hm
      exact he
    | leaf l => cases hm

/-- What is inside of a node is a child of it or inside of a child. -/
theorem mem_inside {e : Element} :
    e ∈ n.inside ↔ e ∈ n.elements ∨ ∃ c ∈ n.nodes, e ∈ c.inside := by
  rw [inside, PlacedTree.walkAll_eq, List.mem_flatMap]
  constructor
  · rintro ⟨t, ht, he⟩
    cases t with
    | leaf t =>
      rw [PlacedTree.walk, List.mem_singleton] at he
      exact .inl (he ▸ List.mem_map_of_mem (f := PlacedTree.element _) ht)
    | branch m ts =>
      have hc := List.mem_map_of_mem (f := PlacedTree.element (n.toSpot :: n.above)) ht
      rw [PlacedTree.walk, List.mem_cons] at he
      obtain rfl | he := he
      · exact .inl hc
      · exact .inr ⟨_, node_mem_elements.mp hc, he⟩
  · rintro (he | ⟨c, hc, he⟩)
    · obtain ⟨t, ht, rfl⟩ := List.mem_map.mp he
      exact ⟨t, ht, by cases t <;> simp [PlacedTree.walk, PlacedTree.element]⟩
    · obtain ⟨t, ht, hc⟩ := List.mem_map.mp (node_mem_elements.mpr hc)
      cases t with
      | leaf t => cases hc
      | branch m ts =>
        cases hc
        exact ⟨_, ht, List.mem_cons_of_mem _ he⟩

theorem node_mem_inside : .node m ∈ n.inside ↔ ∃ c ∈ n.nodes, m ∈ c.descendants := by
  rw [mem_inside, node_mem_elements]
  constructor
  · rintro (hm | ⟨c, hc, hm⟩)
    · exact ⟨m, hm, m.mem_descendants_self⟩
    · exact ⟨c, hc, node_mem_walk.mp (List.mem_cons_of_mem _ hm)⟩
  · rintro ⟨c, hc, hm⟩
    rw [← node_mem_walk, walk_eq, List.mem_cons, Element.node.injEq] at hm
    obtain rfl | hm := hm
    · exact .inl hc
    · exact .inr ⟨c, hc, hm⟩

theorem mem_descendants_iff : m ∈ n.descendants ↔ m = n ∨ .node m ∈ n.inside := by
  rw [← node_mem_walk, walk_eq, List.mem_cons, Element.node.injEq]

theorem eq_of_nodes_eq_nil (h : n.nodes = []) (hm : m ∈ n.descendants) : m = n := by
  obtain hm | hm := mem_descendants_iff.mp hm
  · exact hm
  · obtain ⟨c, hc, -⟩ := node_mem_inside.mp hm
    rw [h] at hc
    cases hc

theorem mem_descendants_of_mem_inside (h : .node m ∈ n.inside) : m ∈ n.descendants :=
  node_mem_walk.mp (List.mem_cons_of_mem _ h)

theorem inside_subset (hm : m ∈ n.descendants) : ∀ e ∈ m.inside, e ∈ n.inside := by
  refine descendants_induct (motive := fun m => ∀ e ∈ m.inside, e ∈ n.inside)
    (fun _ he => he) ?_ m hm
  intro p c hp hc ih e he
  exact ih e (mem_inside.mpr (.inr ⟨c, hc, he⟩))

theorem exists_of_leaf_mem_inside {l : Leaf} (h : .leaf l ∈ n.inside) :
    ∃ m ∈ n.descendants, .leaf l ∈ m.elements := by
  obtain he | ⟨m, hm, he⟩ := mem_elements_of_mem_walk (List.mem_cons_of_mem (.node n) h)
  · cases he
  · exact ⟨m, hm, he⟩

/-- The way up from a node inside of another one leads through that. -/
theorem ancestors_of_mem_descendants (h : m ∈ n.descendants) :
    ∃ path, m.ancestors = path ++ n.ancestors ∧ ∀ x ∈ path, .node x ∈ n.inside := by
  refine descendants_induct (motive := fun m => ∃ path, m.ancestors = path ++ n.ancestors ∧
    ∀ x ∈ path, .node x ∈ n.inside) ⟨[], rfl, by simp⟩ ?_ m h
  rintro p c hp hc ⟨path, he, hi⟩
  refine ⟨c :: path, ?_, ?_⟩
  · rw [ancestors, outer_of_mem_nodes hc, List.cons_append, ← he]
    rfl
  · intro x hx
    obtain rfl | hx := List.mem_cons.mp hx
    · rw [← node_mem_walk, walk_eq, List.mem_cons] at hp
      obtain hp | hp := hp
      · cases hp
        exact mem_inside.mpr (.inl (node_mem_elements.mpr hc))
      · obtain ⟨d, hd, hp⟩ := node_mem_inside.mp hp
        exact node_mem_inside.mpr ⟨d, hd, mem_descendants_of_mem_nodes hp hc⟩
    · exact hi x hx

section

variable (h : n.placed.WellPlaced)

include h

theorem pairwise_elements :
    n.elements.Pairwise fun a b => a.range.stop ≤ b.range.start := by
  obtain ⟨hs, hw⟩ := h.children
  rw [elements, List.pairwise_map]
  simpa using hs.pairwise hw

theorem contains_of_mem_inside {e : Element} (he : e ∈ n.inside) :
    n.range.start ≤ e.range.start ∧ e.range.stop ≤ n.range.stop := by
  have hw : e ∈ PlacedTree.walk n.above n.placed := List.mem_cons_of_mem _ he
  exact Range.contains_iff.mp (h.contains_of_mem_walk hw)

theorem start_of_elements {e : Element} {es : List Element} (he : n.elements = e :: es) :
    e.range.start = n.range.start := by
  obtain ⟨hs, -⟩ := h.children
  obtain ⟨t, ts, ht, rfl, -⟩ := List.map_eq_cons_iff.mp he
  rw [ht] at hs
  rw [PlacedTree.range_element]
  exact hs.start_eq

end

namespace Rooted

variable {root : Node} (h : root.Rooted)

include h

theorem wellPlaced_of_mem (hn : n ∈ root.descendants) : n.placed.WellPlaced :=
  h.wellPlaced.of_mem_nodes hn

theorem pairwise_walk : root.walk.Pairwise Element.Precedes :=
  h.wellPlaced.pairwise_walk root.above

theorem leaf_stop {l : Leaf} (hl : .leaf l ∈ root.walk) :
    l.range.stop = l.range.start + l.token.width := by
  obtain he | ⟨m, hm, he⟩ := mem_elements_of_mem_walk hl
  · cases he
  · obtain ⟨t, ht, he⟩ := List.mem_map.mp he
    have hwell := (h.wellPlaced_of_mem hm).children.2 t ht
    cases hwell with
    | leaf hs =>
      cases he
      exact hs
    | branch => cases he

theorem leaf_lt {l : Leaf} (hl : .leaf l ∈ root.walk) : l.range.start < l.range.stop := by
  have hstop := h.leaf_stop hl
  obtain he | ⟨m, hm, he⟩ := mem_elements_of_mem_walk hl
  · cases he
  · have ht : .leaf l.token ∈ m.trees := by
      rw [← tree_elements]
      exact List.mem_map_of_mem (f := Element.tree) he
    have hw : 0 < l.token.width := everywhere_of_mem_descendants h.wideTokens hm l.token ht
    omega

/-- Two elements are one in the other, or one stands behind the other. -/
theorem nested_or_apart {a b : Element} (ha : a ∈ root.walk) (hb : b ∈ root.walk) :
    a = b ∨ a.Precedes b ∨ b.Precedes a := by
  have hs : Std.Symm fun a b : Element => a = b ∨ a.Precedes b ∨ b.Precedes a := ⟨by
    rintro a b (rfl | hab | hba)
    · exact .inl rfl
    · exact .inr (.inr hab)
    · exact .inr (.inl hba)⟩
  exact List.Pairwise.forall_of_forall
    (R := fun a b : Element => a = b ∨ a.Precedes b ∨ b.Precedes a) (fun _ _ => .inl rfl)
    (h.pairwise_walk.imp fun hab => .inr (.inl hab)) ha hb

end Rooted

end Node

end NixScope.Syntax
