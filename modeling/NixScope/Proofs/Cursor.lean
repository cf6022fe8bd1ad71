import NixScope.Editor.Cursor
import NixScope.Proofs.Order

namespace NixScope.Cursor

open Syntax

section

variable {root : Node} (h : root.Rooted) {o : Nat} {l : Leaf}

include h

theorem pairwise_leaves : (root.walk.filterMap Element.leaf?).Pairwise
    fun a b => a.range.stop ≤ b.range.start := by
  rw [List.pairwise_filterMap]
  refine h.pairwise_walk.imp ?_
  rintro a b hab x hx y hy
  cases a <;> cases hx
  cases b <;> cases hy
  cases hab with
  | behind hle => exact hle

omit h in
theorem mem_leaves : l ∈ root.walk.filterMap Element.leaf? ↔ .leaf l ∈ root.walk := by
  rw [List.mem_filterMap]
  constructor
  · rintro ⟨e, he, hl⟩
    cases e with
    | node n => cases hl
    | leaf x =>
      cases hl
      exact he
  · exact fun hl => ⟨_, hl, rfl⟩

/-- Only the token that ends where another one begins touches the first offset of that as well. -/
theorem touching_eq (hl : .leaf l ∈ root.walk) (hs : l.range.start ≤ o) (ht : o < l.range.stop) :
    touching root o = [l] ∨ ∃ x, .leaf x ∈ root.walk ∧ x.range.stop = o ∧ l.range.start = o ∧
      touching root o = [x, l] := by
  have hp := pairwise_leaves h
  have hpos : ∀ x ∈ root.walk.filterMap Element.leaf?, x.range.start < x.range.stop :=
    fun x hx => h.leaf_lt (mem_leaves.mp hx)
  have hmem : ∀ x ∈ root.walk.filterMap Element.leaf?, .leaf x ∈ root.walk :=
    fun x hx => mem_leaves.mp hx
  rw [touching]
  obtain ⟨as, bs, he⟩ := List.append_of_mem (mem_leaves.mpr hl)
  rw [he] at hp hpos hmem ⊢
  rw [List.pairwise_append, List.pairwise_cons] at hp
  obtain ⟨has, ⟨hbs, -⟩, hab⟩ := hp
  have htouch : (!l.range.isEmpty && l.range.touches o) = true := by
    simp [Range.isEmpty, Range.touches]
    omega
  have hright : bs.filter (fun l => !l.range.isEmpty && l.range.touches o) = [] := by
    rw [List.filter_eq_nil_iff]
    intro x hx
    have := hbs x hx
    simp [Range.touches]
    omega
  have hleft : ∀ x ∈ as.filter (fun l => !l.range.isEmpty && l.range.touches o),
      x ∈ as ∧ x.range.stop = o ∧ l.range.start = o := by
    intro x hx
    obtain ⟨hx, hxo⟩ := List.mem_filter.mp hx
    have := hab x hx l List.mem_cons_self
    simp [Range.touches] at hxo
    exact ⟨hx, by omega, by omega⟩
  have hsorted := has.filter fun l => !l.range.isEmpty && l.range.touches o
  rw [List.filter_append, List.filter_cons, if_pos htouch, hright]
  generalize as.filter (fun l => !l.range.isEmpty && l.range.touches o) = lefts at hleft hsorted
  match lefts with
  | [] => exact .inl rfl
  | [x] =>
    obtain ⟨hx, hxo, hlo⟩ := hleft x List.mem_cons_self
    exact .inr ⟨x, hmem x (by simp [hx]), hxo, hlo, rfl⟩
  | x :: y :: _ =>
    obtain ⟨-, hxo, -⟩ := hleft x List.mem_cons_self
    obtain ⟨hy, hyo, -⟩ := hleft y (List.mem_cons_of_mem _ List.mem_cons_self)
    have hxy := (List.pairwise_cons.mp hsorted).1 y List.mem_cons_self
    have hpy := hpos y (by simp [hy])
    omega

/-- The token that an offset is in is the one under the cursor, unless only the one before it spells
a name. -/
theorem leaf?_eq (hl : .leaf l ∈ root.walk) (hs : l.range.start ≤ o) (ht : o < l.range.stop) :
    leaf? root o = some l ∨ ∃ x, .leaf x ∈ root.walk ∧ x.range.stop = o ∧ l.range.start = o ∧
      isName x.kind = true ∧ isName l.kind = false ∧ leaf? root o = some x := by
  obtain he | ⟨x, hx, hxo, hlo, he⟩ := touching_eq h hl hs ht
  · exact .inl (by rw [leaf?, he])
  · rw [leaf?, he]
    dsimp only
    split
    · exact .inl rfl
    · rename_i hn
      rw [Bool.or_eq_true, not_or, Bool.not_eq_true, Bool.not_eq_true, Bool.not_eq_false'] at hn
      exact .inr ⟨x, hx, hxo, hlo, hn.2, hn.1, rfl⟩

theorem eq_of_start_eq {x : Leaf} (hl : .leaf l ∈ root.walk) (hx : .leaf x ∈ root.walk)
    (he : l.range.start = x.range.start) : l = x := by
  have hlt := h.leaf_lt hl
  have hxt := h.leaf_lt hx
  obtain heq | hp | hp := h.nested_or_apart hl hx
  · exact Element.leaf.inj heq
  · cases hp with
    | behind hb =>
      have hb : l.range.stop ≤ x.range.start := hb
      omega
  · cases hp with
    | behind hb =>
      have hb : x.range.stop ≤ l.range.start := hb
      omega

variable {n : Node} (hn : n ∈ root.descendants)

include hn

omit h in
theorem mem_walk_of_mem_inside {e : Element} (he : e ∈ n.inside) : e ∈ root.walk :=
  List.mem_cons_of_mem _ (Node.inside_subset hn e he)

theorem mem_inside_of_overlap {x : Leaf} (hx : .leaf x ∈ root.walk)
    (hs : n.range.start < x.range.stop) (ht : x.range.start < n.range.stop) :
    .leaf x ∈ n.inside := by
  obtain he | hp | hp := h.nested_or_apart (Node.node_mem_walk.mpr hn) hx
  · cases he
  · cases hp with
    | around hi => exact hi
    | behind hb =>
      have hb : n.range.stop ≤ x.range.start := hb
      omega
  · cases hp with
    | behind hb =>
      have hb : x.range.stop ≤ n.range.start := hb
      omega

theorem exists_leaf (hs : n.range.start ≤ o) (ht : o < n.range.stop) :
    ∃ l, .leaf l ∈ n.inside ∧ l.range.start ≤ o ∧ o < l.range.stop := by
  obtain ⟨l, hl, hlo⟩ := (h.wellPlaced_of_mem hn).exists_leaf (o := o) hs ht n.above
  obtain hl | hl := List.mem_cons.mp hl
  · cases hl
  · exact ⟨l, hl, hlo⟩

/-- An offset in a node that begins with a name is on a token of the node. -/
theorem leaf?_mem_inside {first : Leaf} (hf : .leaf first ∈ n.inside)
    (hfs : first.range.start = n.range.start) (hname : isName first.kind = true)
    (hs : n.range.start ≤ o) (ht : o < n.range.stop) :
    ∃ l, leaf? root o = some l ∧ .leaf l ∈ n.inside := by
  obtain ⟨l, hl, hlo, hol⟩ := exists_leaf h hn hs ht
  obtain he | ⟨x, hx, hxo, hle, -, hlname, he⟩ :=
    leaf?_eq h (mem_walk_of_mem_inside hn hl) hlo hol
  · exact ⟨l, he, hl⟩
  · have hxt := h.leaf_lt hx
    by_cases hstart : o = n.range.start
    · have hfl : first = l := eq_of_start_eq h (mem_walk_of_mem_inside hn hf)
        (mem_walk_of_mem_inside hn hl) (by omega)
      rw [← hfl, hname] at hlname
      cases hlname
    · exact ⟨x, he, mem_inside_of_overlap h hn hx (by omega) (by omega)⟩

omit h hn in
theorem around_eq (he : leaf? root o = some l) (hl : .leaf l ∈ n.inside) :
    ∃ path, around root o = path ++ n.ancestors ∧ ∀ x ∈ path, .node x ∈ n.inside := by
  obtain ⟨m, hm, hlm⟩ := Node.exists_of_leaf_mem_inside hl
  have ha : l.above = m.toSpot :: m.above := Node.above_of_mem_elements hlm
  have hr : around root o = m.ancestors := by
    rw [around, he]
    dsimp only
    rw [ha]
    rfl
  rw [hr]
  exact Node.ancestors_of_mem_descendants hm

end

end NixScope.Cursor
