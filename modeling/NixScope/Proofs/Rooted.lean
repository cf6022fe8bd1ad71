import NixScope.Proofs.BoundNames
import NixScope.Proofs.Pointers
import NixScope.Proofs.Spelling

namespace NixScope.Syntax

theorem Tree.everywhere_leaves {P : Token → Prop} {t : Tree} (h : ∀ l ∈ t.leaves, P l) :
    t.Everywhere fun _ ts => ∀ l, .leaf l ∈ ts → P l := by
  induction t using Rose.induct with
  | leaf l => exact .leaf l
  | branch k ts ih =>
    have hm : ∀ u ∈ ts, ∀ l ∈ u.leaves, P l := by
      intro u hu l hl
      apply h
      rw [Rose.leaves, Rose.leavesOf_eq]
      exact List.mem_flatMap.mpr ⟨u, hu, hl⟩
    refine .branch (fun l hl => ?_) fun u hu => ih u hu (hm u hu)
    exact hm _ hl l (by simp [Rose.leaves])

/-- The tree that a text is parsed to, as far as searching in it depends on it. -/
structure Node.Rooted (root : Node) : Prop where
  above : root.above = []
  wellPlaced : root.placed.WellPlaced
  tight : root.tree.Everywhere Tree.Tight
  wideNames : root.tree.Everywhere Tree.WideNames
  spelled : root.tree.Everywhere Tree.Spelled
  wideTokens : root.tree.Everywhere fun _ ts => ∀ l, .leaf l ∈ ts → 0 < l.width

theorem Parse.rooted (text : String) : (parse text).root.Rooted where
  above := rfl
  wellPlaced := Node.root_wellPlaced ..
  tight := Parse.everywhere_tight text
  wideNames := Parse.everywhere_wideNames text
  spelled := Parse.everywhere_spelled text
  wideTokens := by
    apply Tree.everywhere_leaves
    rw [Parse.tree_root]
    intro l hl
    have ht : (parse text).tree.leaves = Token.lex text := Parse.leaves_ofTokens _
    rw [ht] at hl
    exact Token.width_pos_of_mem_lex hl

theorem Parse.stop_root (text : String) : (parse text).root.range.stop = text.utf8ByteSize := by
  have hs := (Parse.rooted text).wellPlaced.stop_eq
  have hr : (parse text).root.placed.range = ⟨0, (parse text).root.range.stop⟩ := rfl
  have ht : (parse text).root.placed.tree = (parse text).tree := Parse.tree_root _
  have hl : (parse text).tree.leaves = Token.lex text := Parse.leaves_ofTokens _
  rw [hr, ht, Tree.width, hl, Token.widthOf_eq, Token.join_lex, Nat.zero_add] at hs
  exact hs

theorem PlacedTree.WellPlaced.of_mem_nodes {t : PlacedTree} (h : WellPlaced t) {above : List Spot}
    {n : Node} (hn : n ∈ nodes above t) : n.placed.WellPlaced := by
  induction h generalizing above with
  | leaf h => simp at hn
  | @branch m ts hs h ih =>
    rw [nodes_branch, List.mem_cons, List.mem_flatMap] at hn
    obtain rfl | ⟨u, hu, hn⟩ := hn
    · exact .branch hs h
    · exact ih u hu hn

namespace Pointer

open PlacedTree

theorem mem_of_innermostOf {r : Range} {above : List Spot} {ts : List PlacedTree}
    (ih : ∀ t ∈ ts, ∀ n, innermost r above t = some n → n ∈ nodes above t) {isFirst : Bool}
    {n : Node} (h : innermostOf r above isFirst ts = some n) : n ∈ ts.flatMap (nodes above) := by
  induction ts generalizing isFirst with
  | nil => cases h
  | cons t ts ihs =>
    rw [innermostOf] at h
    rw [List.flatMap_cons, List.mem_append]
    split at h
    · exact .inl (ih t List.mem_cons_self n h)
    · exact .inr (ihs (fun u hu => ih u (List.mem_cons_of_mem _ hu)) h)

theorem mem_of_innermost {r : Range} {t : PlacedTree} {above : List Spot} {n : Node}
    (h : innermost r above t = some n) : n ∈ nodes above t := by
  induction t using Rose.induct generalizing above n with
  | leaf t => cases h
  | branch m ts ih =>
    rw [innermost, Option.some.injEq] at h
    rw [nodes_branch, List.mem_cons]
    cases ho : innermostOf r (⟨m, ts⟩ :: above) true ts with
    | none =>
      rw [ho] at h
      exact .inl h.symm
    | some c =>
      rw [ho, Option.getD_some] at h
      exact .inr (h ▸ mem_of_innermostOf (fun t ht n hn => ih t ht hn) ho)

theorem mem_of_covering? {r : Range} {root n : Node} (h : covering? r root = some n) :
    n ∈ root.descendants := by
  rw [covering?] at h
  split at h
  · exact mem_of_innermost (t := root.placed) h
  · cases h

theorem eq_of_find? {p : Pointer} {root n : Node} (h : p.find? root = some n) :
    n.pointer = p := by
  obtain ⟨c, -, hn⟩ := Option.bind_eq_some_iff.mp h
  have hk : n.kind = p.kind := by simpa using List.find?_some hn
  have hr : n.range = p.range := by
    simpa using List.all_eq_true.mp List.all_takeWhile n (List.mem_of_find?_eq_some hn)
  exact pointer_eq_iff.mpr ⟨hk, hr⟩

end Pointer

namespace PlacedTree

theorem mem_of_unwrapAll {above : List Spot} {ts : List PlacedTree}
    (ih : ∀ t ∈ ts, ∀ n, unwrap above t = some n → n ∈ nodes above t) {n : Node}
    (h : unwrapAll above ts = some n) : n ∈ ts.flatMap (nodes above) := by
  induction ts with
  | nil => cases h
  | cons t ts ihs =>
    have ihs := ihs fun u hu => ih u (List.mem_cons_of_mem _ hu)
    rw [List.flatMap_cons, List.mem_append]
    cases t with
    | leaf l => exact .inr (ihs h)
    | branch m cs =>
      rw [unwrapAll] at h
      split at h
      · exact .inl (ih _ List.mem_cons_self n h)
      · exact .inr (ihs h)

theorem mem_of_unwrap {t : PlacedTree} {above : List Spot} {n : Node}
    (h : unwrap above t = some n) : n ∈ nodes above t := by
  induction t using Rose.induct generalizing above n with
  | leaf t => cases h
  | branch m ts ih =>
    rw [unwrap] at h
    rw [nodes_branch, List.mem_cons]
    split at h
    · exact .inr (mem_of_unwrapAll (fun t ht n hn => ih t ht hn) h)
    · exact .inl (Option.some.inj h).symm

end PlacedTree

namespace Node

theorem mem_of_stripParens? {n m : Node} (h : n.stripParens? = some m) :
    m ∈ n.descendants := by
  rw [stripParens?] at h
  split at h
  · rw [PlacedTree.descendants_eq, placed, PlacedTree.nodes_branch]
    have hm := PlacedTree.mem_of_unwrapAll (fun _ _ _ hn => PlacedTree.mem_of_unwrap hn) h
    exact List.mem_cons_of_mem _ hm
  · cases h
    exact mem_descendants_self n

theorem mem_nodes_of_child? {n c : Node} {k : Kind} (h : n.child? k = some c) :
    c ∈ n.nodes ∧ c.kind = k :=
  ⟨List.mem_of_find?_eq_some h, by simpa using List.find?_some h⟩

theorem mem_nodes_of_childrenOf {n c : Node} {k : Kind} (h : c ∈ n.childrenOf k) :
    c ∈ n.nodes ∧ c.kind = k := by
  rw [childrenOf, List.mem_filter] at h
  exact ⟨h.1, by simpa using h.2⟩

theorem trees_of_child? {n c : Node} {k : Kind} (h : n.child? k = some c)
    {before after us : List Tree} (hn : n.trees = before ++ .branch k us :: after)
    (hb : ∀ t ∈ before, ∃ l, t = .leaf l) : c.trees = us := by
  rw [← tree_elements] at hn
  obtain ⟨as, bs, he, has, hbs⟩ := List.map_eq_append_iff.mp hn
  obtain ⟨e, cs, rfl, het, -⟩ := List.map_eq_cons_iff.mp hbs
  have hleaves : as.filterMap Element.node? = [] := by
    rw [List.filterMap_eq_nil_iff]
    intro a ha
    obtain ⟨l, hl⟩ := hb a.tree (has ▸ List.mem_map_of_mem ha)
    cases a with
    | leaf l => rfl
    | node m =>
      rw [Element.tree, Spot.tree_eq] at hl
      cases hl
  cases e with
  | leaf l => cases het
  | node m =>
    rw [Element.tree, Spot.tree_eq, Rose.branch.injEq] at het
    rw [child?, nodes, he, List.filterMap_append, hleaves, List.nil_append,
      List.filterMap_cons_some (Element.node?_node m), List.find?_cons_of_pos (by simp [het.1]),
      Option.some.injEq] at h
    rw [← h, het.2]

namespace Rooted

variable {root n m : Node} (h : root.Rooted)

include h

theorem range_lt (hn : n ∈ root.descendants) (hw : 0 < Tree.widthOf n.trees) :
    n.range.start < n.range.stop := by
  have hs := (h.wellPlaced.of_mem_nodes hn).stop_eq
  have ht : n.placed.tree = .branch n.kind n.trees := n.tree_eq
  rw [ht, Tree.width_branch] at hs
  have hr : n.placed.range = n.range := rfl
  rw [hr] at hs
  omega

theorem find? (hn : n ∈ root.descendants) (hw : 0 < Tree.widthOf n.trees) :
    n.pointer.find? root = some n :=
  (Pointer.find?_eq_some (h.range_lt hn hw) h.wellPlaced h.tight h.above).mpr ⟨hn, rfl⟩

theorem eq_of_pointer (hn : n ∈ root.descendants) (hm : m ∈ root.descendants)
    (hw : 0 < Tree.widthOf n.trees) (hp : n.pointer = m.pointer) : n = m := by
  have hf : n.pointer.find? root = some m :=
    (Pointer.find?_eq_some (h.range_lt hn hw) h.wellPlaced h.tight h.above).mpr ⟨hm, hp.symm⟩
  rw [h.find? hn hw, Option.some.injEq] at hf
  exact hf

theorem width_pos (hn : n ∈ root.descendants) (hm : m ∈ n.descendants)
    (hw : 0 < Tree.widthOf m.trees) : 0 < Tree.widthOf n.trees := by
  have hwell := h.wellPlaced.of_mem_nodes hn
  have hc := Range.contains_iff.mp (hwell.contains_of_mem hm)
  have hlt := h.range_lt (descendants_trans hn hm) hw
  have hs := hwell.stop_eq
  have ht : n.placed.tree = .branch n.kind n.trees := n.tree_eq
  rw [ht, Tree.width_branch] at hs
  omega

theorem width_pos_of_token? {k : Kind} {l : Leaf} (hn : n ∈ root.descendants)
    (ht : n.token? k = some l) : 0 < Tree.widthOf n.trees := by
  have hl : l ∈ n.leaves := List.mem_of_find?_eq_some ht
  obtain ⟨e, he, hle⟩ := List.mem_filterMap.mp hl
  cases e with
  | node m => cases hle
  | leaf l' =>
    cases hle
    have hm : .leaf l.token ∈ n.trees := by
      rw [← tree_elements]
      exact List.mem_map_of_mem (f := Element.tree) he
    have hpos := everywhere_of_mem_descendants h.wideTokens hn _ hm
    have hle := Tree.width_le_widthOf hm
    rw [Tree.width_leaf] at hle
    omega

theorem width_pos_of_inheritedName {attr : Node} (hn : n ∈ root.descendants)
    (hk : n.kind = .inheritedName) (ha : attr ∈ n.nodes) (hak : attr.kind = .attr) :
    0 < Tree.widthOf attr.trees := by
  have hwide := everywhere_of_mem_descendants h.wideNames hn
  rw [hk] at hwide
  cases hwide with
  | inheritedName hw => exact hw attr.trees (hak ▸ tree_mem_trees ha)
  | other hi => exact absurd rfl hi

/-- What a pointer finds is in the tree. -/
theorem mem_of_find? {p : Pointer} (hf : p.find? root = some n) : n ∈ root.descendants := by
  obtain ⟨c, hc, hn⟩ := Option.bind_eq_some_iff.mp hf
  have hm := (List.takeWhile_sublist _).subset (List.mem_of_find?_eq_some hn)
  have hcd := Pointer.mem_of_covering? hc
  obtain rfl | hm := List.mem_cons.mp hm
  · exact hcd
  · exact mem_descendants_of_mem_outer h.above hcd n hm

end Rooted

end Node

end NixScope.Syntax
