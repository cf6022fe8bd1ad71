import NixScope.Proofs.Segments

namespace NixScope.Syntax

namespace Tree

/-- The tree lies somewhere in the list, with these tokens in front of it and behind it. -/
inductive Lies (t : Tree) : List Token → List Tree → List Token → Prop
  | here (us vs : List Tree) :
      Lies t (Rose.leavesOf us) (us ++ t :: vs) (Rose.leavesOf vs)
  | inside {before after : List Token} {ts : List Tree} (k : Kind) (us vs : List Tree)
      (h : Lies t before ts after) :
      Lies t (Rose.leavesOf us ++ before) (us ++ .branch k ts :: vs)
        (after ++ Rose.leavesOf vs)

namespace Lies

variable {t : Tree} {before after : List Token} {ts : List Tree}

theorem leaves (h : t.Lies before ts after) :
    before ++ t.leaves ++ after = Rose.leavesOf ts := by
  induction h with
  | here us vs => simp [Rose.leavesOf_append, Rose.leavesOf]
  | inside k us vs h ih => simp [Rose.leavesOf_append, Rose.leavesOf, Rose.leaves, ← ih]

theorem prepend (h : t.Lies before ts after) (ws : List Tree) :
    t.Lies (Rose.leavesOf ws ++ before) (ws ++ ts) after := by
  cases h with
  | here us vs =>
    rw [← Rose.leavesOf_append, ← List.append_assoc]
    exact .here (ws ++ us) vs
  | inside k us vs h =>
    rw [← List.append_assoc, ← Rose.leavesOf_append, ← List.append_assoc]
    exact .inside k (ws ++ us) vs h

theorem append (h : t.Lies before ts after) (ws : List Tree) :
    t.Lies before (ts ++ ws) (after ++ Rose.leavesOf ws) := by
  cases h with
  | here us vs =>
    rw [← Rose.leavesOf_append, List.append_assoc]
    exact .here us (vs ++ ws)
  | inside k us vs h =>
    rw [List.append_assoc, List.append_assoc, ← Rose.leavesOf_append]
    exact .inside k us (vs ++ ws) h

theorem branch (h : t.Lies before ts after) (k : Kind) :
    t.Lies before [.branch k ts] after := by
  simpa [Rose.leavesOf] using Lies.inside k [] [] h

end Lies

end Tree

namespace PlacedTree

theorem Spans.start_of_append {start stop : Nat} {ps qs : List PlacedTree} {p : PlacedTree}
    (hs : Spans start (ps ++ p :: qs) stop) (hw : ∀ q ∈ ps, WellPlaced q) :
    (range p).start = start + Tree.widthOf (ps.map tree) := by
  induction ps generalizing start with
  | nil => simpa [Tree.widthOf, Rose.leavesOf, Token.widthOf] using hs.start_eq
  | cons q ps ih =>
    have hstart := hs.start_eq
    have hq := (hw q List.mem_cons_self).stop_eq
    cases hs with
    | cons hs =>
      rw [ih hs fun q hm => hw q (List.mem_cons_of_mem _ hm), List.map_cons, Tree.widthOf_cons]
      omega

theorem element_mem_walk (above : List Spot) (p : PlacedTree) : element above p ∈ walk above p := by
  cases p <;> simp [walk, element]

theorem tree_element (above : List Spot) (p : PlacedTree) : (element above p).tree = tree p := by
  cases p <;> rfl

theorem Spans.exists_element {start stop : Nat} {ps : List PlacedTree} (hs : Spans start ps stop)
    (hw : ∀ p ∈ ps, WellPlaced p) {t : Tree} {before after : List Token}
    (h : t.Lies before (ps.map tree) after) (above : List Spot) :
    ∃ e ∈ walkAll above ps, e.tree = t ∧ e.range.start = start + Token.widthOf before := by
  generalize hts : ps.map tree = ts at h
  induction h generalizing ps start stop above with
  | here us vs =>
    obtain ⟨as, bs, rfl, rfl, hbs⟩ := List.map_eq_append_iff.mp hts
    obtain ⟨p, cs, rfl, hp, -⟩ := List.map_eq_cons_iff.mp hbs
    have hstart := hs.start_of_append fun q hq => hw q (by simp [hq])
    refine ⟨element above p, ?_, by rw [tree_element, hp], by rw [range_element, hstart]; rfl⟩
    rw [walkAll_eq]
    exact List.mem_flatMap.mpr ⟨p, by simp, element_mem_walk above p⟩
  | @inside before after ts k us vs h ih =>
    obtain ⟨as, bs, rfl, rfl, hbs⟩ := List.map_eq_append_iff.mp hts
    obtain ⟨p, cs, rfl, hp, -⟩ := List.map_eq_cons_iff.mp hbs
    have hstart := hs.start_of_append fun q hq => hw q (by simp [hq])
    cases p with
    | leaf t => cases hp
    | branch m ps =>
      rw [tree_branch, Rose.branch.injEq] at hp
      obtain ⟨hspans, hwell⟩ := (hw (.branch m ps) (by simp)).children
      obtain ⟨e, he, het, hes⟩ := ih hspans hwell (⟨m, ps⟩ :: above) hp.2
      refine ⟨e, ?_, het, ?_⟩
      · rw [walkAll_eq]
        exact List.mem_flatMap.mpr ⟨.branch m ps, by simp, List.mem_cons_of_mem _ he⟩
      · rw [range_branch, Tree.widthOf] at hstart
        rw [hes, hstart, Token.widthOf_append, Nat.add_assoc]

theorem Spans.lies {start stop offset : Nat} {ps : List PlacedTree} (hs : Spans start ps stop)
    (hw : ∀ p ∈ ps, WellPlaced p) {p : PlacedTree} (hp : p ∈ ps) {t : Tree}
    {before after : List Token} (h : t.Lies before [tree p] after)
    (ho : offset = (range p).start + Token.widthOf before) :
    ∃ before after, t.Lies before (ps.map tree) after ∧
      offset = start + Token.widthOf before := by
  obtain ⟨as, bs, rfl⟩ := List.append_of_mem hp
  have hstart := hs.start_of_append fun q hq => hw q (by simp [hq])
  have hall := (h.append (bs.map tree)).prepend (as.map tree)
  refine ⟨_, _, by simpa using hall, ?_⟩
  rw [Tree.widthOf] at hstart
  rw [ho, hstart, Token.widthOf_append, Nat.add_assoc]

/-- Every element of a placed tree lies there behind tokens that are as wide as it is far from the
start. -/
theorem WellPlaced.lies_of_mem {p : PlacedTree} (h : WellPlaced p) {above : List Spot}
    {e : Element} (he : e ∈ walk above p) :
    ∃ before after, e.tree.Lies before [tree p] after ∧
      e.range.start = (range p).start + Token.widthOf before := by
  induction h generalizing above with
  | @leaf t h =>
    obtain rfl := List.mem_singleton.mp he
    exact ⟨_, _, .here [] [], rfl⟩
  | @branch m ts hs h ih =>
    rw [walk, List.mem_cons, walkAll_eq, List.mem_flatMap] at he
    obtain rfl | ⟨q, hq, he⟩ := he
    · exact ⟨_, _, .here [] [], rfl⟩
    · obtain ⟨before, after, hlies, hstart⟩ := ih q hq he
      obtain ⟨before, after, hlies, hstart⟩ := hs.lies h hq hlies hstart
      refine ⟨before, after, ?_, hstart⟩
      rw [tree_branch]
      exact hlies.branch m.kind

end PlacedTree

namespace Parse

theorem lex_of_element {text : String} {e : Element} (he : e ∈ (parse text).root.walk) :
    ∃ before after, Token.lex text = before ++ e.tree.leaves ++ after ∧
      e.range.start = Token.widthOf before := by
  have hw := (Parse.rooted text).wellPlaced
  obtain ⟨before, after, hlies, hstart⟩ := hw.lies_of_mem he
  have hroot : (parse text).root.placed.tree = (parse text).tree := Parse.tree_root _
  have hlex : (parse text).tree.leaves = Token.lex text := Parse.leaves_ofTokens _
  have hall := hlies.leaves
  rw [hroot, Rose.leavesOf, Rose.leavesOf, List.append_nil, hlex] at hall
  refine ⟨before, after, hall.symm, ?_⟩
  rw [← Nat.zero_add (Token.widthOf before)]
  exact hstart

theorem lex_of_leaf {text : String} {l : Leaf} (hl : .leaf l ∈ (parse text).root.walk) :
    ∃ before after, Token.lex text = before ++ l.token :: after ∧
      l.range.start = Token.widthOf before := by
  obtain ⟨before, after, hlex, hstart⟩ := lex_of_element hl
  refine ⟨before, after, ?_, hstart⟩
  rw [hlex, List.append_assoc]
  rfl

theorem exists_node {text : String} {k : Kind} {us : List Tree} {before after : List Token}
    (h : Tree.Lies (.branch k us) before (parse text).content after) :
    ∃ n ∈ (parse text).root.descendants, n.kind = k ∧ n.trees = us ∧
      n.range.start = Token.widthOf before := by
  obtain ⟨hs, hw⟩ := (Parse.rooted text).wellPlaced.children
  rw [← Tree.tree_placeAll 0 0 (parse text).content] at h
  obtain ⟨e, he, ht, hstart⟩ := hs.exists_element hw h [(parse text).root.toSpot]
  obtain ⟨n, rfl, hk, hu⟩ := Element.exists_node_of_tree ht
  refine ⟨n, Node.node_mem_walk.mp (List.mem_cons_of_mem _ he), hk, hu, ?_⟩
  rw [← Nat.zero_add (Token.widthOf before)]
  exact hstart

end Parse

end NixScope.Syntax
