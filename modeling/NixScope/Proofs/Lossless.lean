import NixScope.Proofs.Lexer
import NixScope.Proofs.Loops
import NixScope.Proofs.Tree
import NixScope.Syntax.Parse

namespace NixScope.Syntax

theorem Place.Reads.everywhere_not_root {p q : Place} {ts : List Tree} (h : Reads p ts q) :
    ∀ t ∈ ts, t.Everywhere fun k _ => k ≠ .root := by
  induction h with
  | skip p => simp
  | report p h => simp
  | leaf h =>
    intro t ht
    rw [List.mem_singleton] at ht
    subst ht
    exact .leaf _
  | node hk h ih =>
    intro t ht
    rw [List.mem_singleton] at ht
    subst ht
    exact .branch hk ih
  | append h h' ih ih' =>
    intro t ht
    obtain ht | ht := List.mem_append.mp ht
    · exact ih t ht
    · exact ih' t ht
  | giveUp hp h ih => exact ih

namespace Grammar

open Rule

end Grammar

namespace Parse

theorem rest_file (p : Place) : (Grammar.file p).2.rest = [] := by
  let q := (Rule.onlyIf (fun p => p.peek.isSome) (Grammar.nested Grammar.maxDepth .expr) p).2
  let r := Rule.onlyIf (fun p => p.peek.isSome)
    (.seq [.report .trailingInput, .node .error .remaining]) q
  have hr : r.2.peek = none := by
    cases hq : q.peek with
    | none => simp [r, Rule.onlyIf, hq]
    | some k =>
      have he : r = Rule.seq [.report .trailingInput, .node .error .remaining] q := by
        simp [r, Rule.onlyIf, hq]
      rw [he]
      exact Rule.peek_remaining _
  have ht : (Grammar.file p).2 = (Rule.trivia r.2).2 := rfl
  rw [ht, Rule.trivia_eq]
  exact Place.peek_eq_none.mp hr

theorem leaves_ofTokens (tokens : List Token) : (ofTokens tokens).tree.leaves = tokens := by
  have hl := (Grammar.reads_file (.start tokens)).leaves
  rw [rest_file, List.append_nil] at hl
  exact hl

theorem tree_root (p : Parse) : p.root.tree = p.tree := Node.tree_root .root p.content

end Parse

end NixScope.Syntax
