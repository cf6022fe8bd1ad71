import NixScope.Proofs.Tree

namespace NixScope

theorem Range.contains_iff {r s : Range} :
    r.contains s = true ↔ r.start ≤ s.start ∧ s.stop ≤ r.stop := by
  simp [Range.contains]

theorem Range.contains_antisymm {r s : Range} (h : r.contains s = true) (h' : s.contains r = true) :
    r = s := by
  rw [contains_iff] at h h'
  obtain ⟨a, b⟩ := r
  obtain ⟨c, d⟩ := s
  rw [Range.mk.injEq]
  dsimp only at h h'
  omega

end NixScope

namespace NixScope.Syntax

namespace PlacedTree

@[simp] theorem range_branch (m : Mark) (ts : List PlacedTree) :
    range (.branch m ts) = m.range := rfl

/-- The trees stand one behind the other from `start` to `stop`. -/
inductive Spans : Nat → List PlacedTree → Nat → Prop
  | nil (start : Nat) : Spans start [] start
  | cons {t : PlacedTree} {ts : List PlacedTree} {stop : Nat} (h : Spans (range t).stop ts stop) :
      Spans (range t).start (t :: ts) stop

/-- Every part of the tree has the range that its tokens fill. -/
inductive WellPlaced : PlacedTree → Prop
  | leaf {t : PlacedToken} (h : t.range.stop = t.range.start + t.token.width) :
      WellPlaced (.leaf t)
  | branch {m : Mark} {ts : List PlacedTree} (hs : Spans m.range.start ts m.range.stop)
      (h : ∀ t ∈ ts, WellPlaced t) : WellPlaced (.branch m ts)

theorem Spans.stop_eq {start stop : Nat} {ts : List PlacedTree} (h : Spans start ts stop)
    (hw : ∀ t ∈ ts, (range t).stop = (range t).start + (tree t).width) :
    stop = start + Tree.widthOf (ts.map tree) := by
  induction h with
  | nil start => rfl
  | cons h ih =>
    have ht := hw _ List.mem_cons_self
    have hs := ih fun t ht => hw t (List.mem_cons_of_mem _ ht)
    rw [List.map_cons, Tree.widthOf_cons]
    omega

theorem WellPlaced.stop_eq {t : PlacedTree} (h : WellPlaced t) :
    (range t).stop = (range t).start + (tree t).width := by
  induction h with
  | leaf h => simpa [range, Tree.width_leaf] using h
  | branch hs h ih =>
    rw [tree_branch, Tree.width_branch]
    exact hs.stop_eq ih

theorem Spans.mem {start stop : Nat} {ts : List PlacedTree} (h : Spans start ts stop)
    (hw : ∀ t ∈ ts, WellPlaced t) :
    ∀ t ∈ ts, start ≤ (range t).start ∧ (range t).stop ≤ stop := by
  induction h with
  | nil start => simp
  | @cons u us stop h ih =>
    have hu := (hw u List.mem_cons_self).stop_eq
    have hus : ∀ t ∈ us, WellPlaced t := fun t ht => hw t (List.mem_cons_of_mem _ ht)
    have hstop := h.stop_eq fun t ht => (hus t ht).stop_eq
    intro t ht
    obtain rfl | ht := List.mem_cons.mp ht
    · omega
    · have hm := ih hus t ht
      omega

theorem WellPlaced.children {m : Mark} {ts : List PlacedTree} (h : WellPlaced (.branch m ts)) :
    Spans m.range.start ts m.range.stop ∧ ∀ t ∈ ts, WellPlaced t := by
  cases h with
  | branch hs h => exact ⟨hs, h⟩

end PlacedTree

namespace Tree

open PlacedTree

theorem placeAll_spans {ts : List Tree}
    (h : ∀ t ∈ ts, ∀ start index, WellPlaced (place start index t) ∧
      (PlacedTree.range (place start index t)).start = start) (start index : Nat) :
    Spans start (placeAll start index ts).1 (placeAll start index ts).2 ∧
      ∀ t ∈ (placeAll start index ts).1, WellPlaced t := by
  induction ts generalizing start index with
  | nil => exact ⟨.nil start, by simp [placeAll]⟩
  | cons t ts ih =>
    obtain ⟨hw, hs⟩ := h t List.mem_cons_self start index
    obtain ⟨hspans, hall⟩ := ih (fun u hu => h u (List.mem_cons_of_mem _ hu))
      (PlacedTree.range (place start index t)).stop (index + 1)
    refine ⟨?_, ?_⟩
    · have hc := Spans.cons hspans
      rw [hs] at hc
      exact hc
    · simpa [placeAll] using ⟨hw, hall⟩

theorem place_wellPlaced (start index : Nat) (t : Tree) :
    WellPlaced (place start index t) ∧
      (PlacedTree.range (place start index t)).start = start := by
  induction t using Rose.induct generalizing start index with
  | leaf t => exact ⟨.leaf rfl, rfl⟩
  | branch k ts ih =>
    obtain ⟨hs, h⟩ := placeAll_spans ih start 0
    exact ⟨.branch hs h, rfl⟩

end Tree

namespace Node

def placed (n : Node) : PlacedTree := .branch n.mark n.children

theorem root_wellPlaced (kind : Kind) (content : List Tree) :
    (root kind content).placed.WellPlaced := by
  obtain ⟨hs, h⟩ := Tree.placeAll_spans (fun t _ => fun s i => t.place_wellPlaced s i) 0 0
  exact .branch hs h

end Node

namespace PlacedTree

def nodes (above : List Spot) (t : PlacedTree) : List Node := (walk above t).filterMap Element.node?

@[simp] theorem nodes_leaf (above : List Spot) (t : PlacedToken) : nodes above (.leaf t) = [] := rfl

@[simp] theorem nodes_branch (above : List Spot) (m : Mark) (ts : List PlacedTree) :
    nodes above (.branch m ts) = ⟨⟨m, ts⟩, above⟩ :: ts.flatMap (nodes (⟨m, ts⟩ :: above)) := by
  have hn : Element.node? (.node ⟨⟨m, ts⟩, above⟩) = some ⟨⟨m, ts⟩, above⟩ := rfl
  simp only [nodes, walk, walkAll_eq]
  rw [List.filterMap_cons_some hn, List.filterMap_flatMap]
  rfl

theorem descendants_eq (n : Node) : n.descendants = nodes n.above n.placed := rfl

theorem WellPlaced.contains_of_mem {t : PlacedTree} (h : WellPlaced t) {above : List Spot}
    {n : Node} (hn : n ∈ nodes above t) : (range t).contains n.range = true := by
  induction h generalizing above with
  | leaf h => simp at hn
  | @branch m ts hs h ih =>
    rw [nodes_branch, List.mem_cons] at hn
    obtain rfl | hn := hn
    · exact Range.contains_iff.mpr ⟨Nat.le_refl _, Nat.le_refl _⟩
    · obtain ⟨t, ht, hn⟩ := List.mem_flatMap.mp hn
      have hc := Range.contains_iff.mp (ih t ht hn)
      have hm := hs.mem h t ht
      rw [Range.contains_iff, range_branch]
      omega

end PlacedTree

end NixScope.Syntax
