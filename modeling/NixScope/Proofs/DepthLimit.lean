import Mathlib.Data.List.TakeWhile
import NixScope.Proofs.Cursor
import NixScope.Proofs.Lexemes
import NixScope.Proofs.Positions
import NixScope.Proofs.Rebuilds
import NixScope.Proofs.Segments

namespace NixScope.Syntax

theorem Problem.message_eq_iff {problem : Problem} :
    problem.message = "expression nested too deeply" ↔ problem = .nestedTooDeeply := by
  constructor
  · intro h
    cases problem with
    | expected k => cases k <;> revert h <;> decide
    | nestedTooDeeply => rfl
    | _ => revert h; decide
  · rintro rfl
    rfl

namespace Place

variable {p q : Place} {ts : List Tree}

/-- Rules move on by what they read. -/
theorem Reads.offset_eq (h : Reads p ts q) : q.offset = p.offset + Tree.widthOf ts := by
  induction h with
  | skip p => rfl
  | report p h => simp [Tree.widthOf, Rose.leavesOf, Token.widthOf]
  | leaf h => simp [Tree.widthOf, Rose.leavesOf, Rose.leaves, Token.widthOf]
  | node hk h ih => rwa [Tree.widthOf_cons, Tree.width_branch]
  | append h h' ih ih' => rw [ih', ih, Tree.widthOf_append, Nat.add_assoc]
  | giveUp hp h ih => simpa using ih

theorem Reads.errors_eq (h : Reads p ts q) (hp : p.gaveUp = true) : q.errors = p.errors := by
  induction h with
  | skip p => rfl
  | report p h => rw [Place.report, if_pos hp]
  | leaf h => rfl
  | node hk h ih => exact ih hp
  | append h h' ih ih' =>
    have he := ih hp
    rw [← he]
    exact ih' (by rwa [gaveUp, he])
  | giveUp hf h ih => simp [hf] at hp

def LimitLast (p : Place) : Prop := ∀ e ∈ p.errors.tail, e.problem ≠ .nestedTooDeeply

theorem LimitLast.report (h : p.LimitLast) (problem : Problem) : (p.report problem).LimitLast := by
  rw [Place.report]
  split
  · exact h
  · rename_i hg
    intro e he
    cases hl : p.errors with
    | nil => simp [hl] at he
    | cons d errors =>
      rw [hl] at he
      obtain rfl | he := List.mem_cons.mp he
      · simpa [Place.gaveUp, hl] using hg
      · exact h e (by rwa [hl])

theorem Reads.limitLast (h : Reads p ts q) (hp : p.LimitLast) : q.LimitLast := by
  induction h with
  | skip p => exact hp
  | report p h => exact hp.report _
  | leaf h => exact hp
  | node hk h ih => exact ih hp
  | append h h' ih ih' => exact ih' (ih hp)
  | giveUp hf h ih => exact ih (hp.report _)

theorem gaveUp_limit (h : p.gaveUp = false) : (p.report .nestedTooDeeply).gaveUp = true := by
  rw [Place.report, if_neg (by simp [h])]
  rfl

theorem isTrivia_of_peek_eq_none (h : p.peek = none) : ∀ t ∈ p.rest, t.isTrivia = true := by
  rw [peek_eq_none, skipTrivia, List.dropWhile_eq_nil_iff] at h
  exact h

/-- Where the limit is hit on the way, a node for what does not fit begins at the reported place,
and behind it there are only blanks and comments. -/
theorem Reads.limit (h : Reads p ts q) (hp : p.gaveUp = false) (hq : q.gaveUp = true) :
    ∃ us before after e errors, Tree.Lies (.branch .error us) before ts after ∧
      (∀ t ∈ after ++ q.rest, t.isTrivia = true) ∧ q.errors = e :: errors ∧
      e.range.start = p.offset + Token.widthOf before := by
  induction h with
  | skip p => simp [hp] at hq
  | report p h => simp [gaveUp_report p _ h, hp] at hq
  | leaf h => simp [Place.gaveUp] at hp hq; simp [hp] at hq
  | node hk h ih =>
    obtain ⟨us, before, after, e, errors, hl, ht, he⟩ := ih hp hq
    exact ⟨us, before, after, e, errors, hl.branch _, ht, he⟩
  | @append p q s ts vs h h' ih ih' =>
    cases hg : q.gaveUp with
    -- the limit is hit in the first part, so the second one finds blanks and comments only
    | true =>
      obtain ⟨us, before, after, e, errors, hl, ht, he, hs⟩ := ih hp hg
      refine ⟨us, before, after ++ Rose.leavesOf vs, e, errors, hl.append vs, ?_, ?_, hs⟩
      · rwa [List.append_assoc, h'.leaves]
      · rwa [h'.errors_eq hg]
    | false =>
      obtain ⟨us, before, after, e, errors, hl, ht, he, hs⟩ := ih' hg hq
      refine ⟨us, Rose.leavesOf ts ++ before, after, e, errors, hl.prepend ts, ht, he, ?_⟩
      rw [hs, h.offset_eq, Token.widthOf_append, Tree.widthOf, Nat.add_assoc]
  | @giveUp p hf h ih =>
    have hg := gaveUp_limit hf
    have hr := h.errors_eq hg
    rw [Place.report, if_neg (by simp [hf])] at hr
    have he : Rule.giveUp p = Rule.node .error Rule.remaining (p.report .nestedTooDeeply) :=
      Rule.giveUp_eq hf
    refine ⟨(Rule.remaining (p.report .nestedTooDeeply).skipTrivia).1,
      p.rest.takeWhile Token.isTrivia, [], _, _, ?_, ?_, hr, ?_⟩
    · have hl := Tree.Lies.here
        (t := .branch .error (Rule.remaining (p.report .nestedTooDeeply).skipTrivia).1)
        ((p.rest.takeWhile Token.isTrivia).map .leaf) []
      rw [he, Rule.node, Rule.trivia_eq, rest_report]
      rwa [Tree.leavesOf_map_leaf] at hl
    · rw [List.nil_append]
      exact isTrivia_of_peek_eq_none (Rule.peek_giveUp hf)
    · rw [nextRange_start]
      rfl

end Place

theorem Token.mem_of_widthOf_le {t : Token} {xs ys as bs : List Token}
    (h : xs ++ t :: ys = as ++ bs) (ht : 0 < t.width) (hle : widthOf as ≤ widthOf xs) :
    t ∈ bs := by
  obtain ⟨cs, rfl, hr⟩ | ⟨cs, rfl, rfl⟩ := List.append_eq_append_iff.mp h
  · cases cs with
    | nil =>
      rw [← List.nil_append bs, ← hr]
      exact List.mem_cons_self
    | cons c cs =>
      obtain ⟨rfl, -⟩ := List.cons.inj hr
      rw [widthOf_append, widthOf] at hle
      omega
  · exact List.mem_append_right _ List.mem_cons_self

theorem Node.eq_of_mem_elements {n m : Node} {e : Element} (h : e ∈ n.elements)
    (h' : e ∈ m.elements) : n = m := by
  have ha := above_of_mem_elements h
  rw [above_of_mem_elements h', List.cons.injEq] at ha
  obtain ⟨s, above⟩ := n
  obtain ⟨s', above'⟩ := m
  obtain ⟨rfl, rfl⟩ := ha
  rfl

namespace Parse

theorem leaf_mem_elements {text : String} {n : Node} {l : Leaf} {front rest : List Token}
    (hn : n ∈ (parse text).root.descendants) (hk : n.kind = .error)
    (hlex : Token.lex text = front ++ Rose.leavesOf n.trees ++ rest)
    (hstart : n.range.start = Token.widthOf front) (hrest : ∀ t ∈ rest, t.isTrivia = true)
    (hl : .leaf l ∈ (parse text).root.walk) (hsolid : l.kind.isTrivia = false)
    (hle : n.range.start ≤ l.range.start) : .leaf l ∈ n.elements := by
  have hrooted := Parse.rooted text
  obtain ⟨xs, ys, hxs, hls⟩ := lex_of_leaf hl
  have hlt := hrooted.leaf_lt hl
  have hstop := (hrooted.wellPlaced_of_mem hn).stop_eq
  have ht : n.placed.tree = .branch n.kind n.trees := n.tree_eq
  rw [ht, Tree.width_branch, Tree.widthOf] at hstop
  have hin : l.range.start < n.range.stop := by
    by_contra hge
    have hlong : Token.widthOf (front ++ Rose.leavesOf n.trees) ≤ Token.widthOf xs := by
      rw [Token.widthOf_append, ← hstart, ← hls]
      exact hstop ▸ Nat.le_of_not_lt hge
    have hmem : l.token ∈ Token.lex text := by simp [hxs]
    have hpos := Token.width_pos_of_mem_lex hmem
    have hmem := Token.mem_of_widthOf_le (hxs.symm.trans hlex) hpos hlong
    have htrivia : l.kind.isTrivia = true := hrest l.token hmem
    rw [hsolid] at htrivia
    cases htrivia
  have hinside := Cursor.mem_inside_of_overlap hrooted hn hl (by omega) hin
  obtain he | ⟨c, hc, -⟩ := Node.mem_inside.mp hinside
  · exact he
  · rw [hrooted.nodes_of_error hn hk] at hc
    cases hc

/-- The limit on nesting is reported once at most, as the last problem. Every token from there on
other than blanks and comments is a child of one node for what does not fit, and of no other. -/
theorem nested_too_deeply (text : String) {before after : List Error} {e : Error}
    (he : (parse text).errors = before ++ e :: after)
    (hm : e.message = "expression nested too deeply") :
    after = [] ∧ (∀ d ∈ before, d.message ≠ "expression nested too deeply") ∧
      ∃ n ∈ (parse text).root.descendants, n.kind = .error ∧
        ∀ l, .leaf l ∈ (parse text).root.walk → l.kind.isTrivia = false →
          e.range.start ≤ l.range.start → ∀ m : Node, .leaf l ∈ m.elements ↔ m = n := by
  have hr := Grammar.reads_file (.start (Token.lex text))
  have hlast : (Grammar.file (.start (Token.lex text))).2.LimitLast :=
    hr.limitLast (by simp [Place.LimitLast, Place.start])
  have herrors : (Grammar.file (.start (Token.lex text))).2.errors =
      after.reverse ++ e :: before.reverse := by
    have hs := congrArg List.reverse he
    simpa [parse, ofTokens] using hs
  have hproblem : e.problem = .nestedTooDeeply := Problem.message_eq_iff.mp hm
  have hafter : after = [] := by
    cases hs : after.reverse with
    | nil => exact List.reverse_eq_nil_iff.mp hs
    | cons d errors =>
      rw [hs] at herrors
      exact absurd hproblem (hlast e (by simp [herrors]))
  subst hafter
  rw [List.reverse_nil, List.nil_append] at herrors
  have hg : (Grammar.file (.start (Token.lex text))).2.gaveUp = true := by
    simp [Place.gaveUp, herrors, hproblem]
  obtain ⟨us, front, rest, d, errors, hlies, htrivia, hd, hstart⟩ := hr.limit rfl hg
  obtain ⟨rfl, -⟩ := List.cons.inj (herrors.symm.trans hd)
  have hlies : Tree.Lies (.branch .error us) front (parse text).content rest := hlies
  obtain ⟨n, hn, hk, hu, hns⟩ := Parse.exists_node hlies
  refine ⟨rfl, fun d hd hdm => ?_, n, hn, hk, fun l hl hsolid hle m => ?_⟩
  · exact hlast d (by simp [herrors, hd]) (Problem.message_eq_iff.mp hdm)
  -- both ranges start behind the same tokens: those in front of the node
  · have hlex : Token.lex text = front ++ Rose.leavesOf n.trees ++ rest := by
      have htokens : (parse text).tree.leaves = Token.lex text := Parse.leaves_ofTokens _
      rw [hu, ← htokens]
      exact hlies.leaves.symm
    have hstart : e.range.start = n.range.start := by
      rw [hns, hstart]
      exact Nat.zero_add _
    have hmem := leaf_mem_elements hn hk hlex hns (fun t ht => htrivia t (by simp [ht])) hl hsolid
      (hstart ▸ hle)
    exact ⟨fun hlm => Node.eq_of_mem_elements hlm hmem, fun hmn => hmn ▸ hmem⟩

end Parse

section

open Rule Grammar

def Token.bang : Token := ⟨.bang, "!"⟩

theorem Token.width_bang : bang.width = 1 := rfl

theorem Token.widthOf_replicate (n : Nat) (t : Token) :
    widthOf (List.replicate n t) = n * t.width := by
  induction n with
  | zero => rw [Nat.zero_mul, List.replicate_zero, widthOf]
  | succ n ih => rw [List.replicate_succ, widthOf, ih, Nat.succ_mul, Nat.add_comm]

theorem Token.lex_bangs (n : Nat) :
    lex (String.ofList (List.replicate n '!')) = List.replicate n bang := by
  have hchars : ∀ n, chars (List.replicate n bang) = List.replicate n '!' := by
    intro n
    induction n with
    | zero => rfl
    | succ n ih =>
      rw [List.replicate_succ, chars_cons, ih]
      rfl
  have hw : Written (List.replicate n bang) [] := by
    induction n with
    | zero => exact ⟨lexes_nil _, Scan.calm_nil⟩
    | succ n ih =>
      refine ih.symbol rfl (by decide) (by decide) ?_ rfl
      rw [hchars, List.append_nil]
      cases n <;> rfl
  rw [lex, String.toList_ofList, ← hchars, hw.lexes.lexFrom_eq]

theorem Rule.errors_giveUp {p : Place} (hp : p.gaveUp = false) :
    (giveUp p).2.errors = ⟨.nestedTooDeeply, p.nextRange⟩ :: p.errors := by
  have hr : (node .error remaining).Reads := reads_node (by simp) reads_remaining
  rw [giveUp_eq hp, (hr _).errors_eq (Place.gaveUp_limit hp), Place.report, if_neg (by simp [hp])]

theorem Grammar.errors_operand {inner : Phrase → Rule} (h : ∀ phrase, (inner phrase).Reads)
    {p : Place} (hg : (leftmost inner p.skipTrivia).2.gaveUp = true) (power : Nat) :
    (operand inner power p).2.errors = (leftmost inner p.skipTrivia).2.errors := by
  obtain ⟨ts, ht⟩ := (readsOn_counted fun clock => readsOn_operatorsFrom h clock power).moves
    (leftmost inner p.skipTrivia).1 (leftmost inner p.skipTrivia).2
  rw [← ht.errors_eq hg]
  simp only [operand, seq_cons_apply, seq_nil_apply, trivia_eq p, andThen]

theorem Grammar.errors_bangs {levels n : Nat} {p : Place} (hp : p.gaveUp = false)
    (hr : p.rest = List.replicate (levels + n) Token.bang) (power : Nat) :
    (nested levels (.operand power) p).2.errors = ⟨.nestedTooDeeply,
      Place.nextRangeIn (List.replicate n Token.bang) (p.offset + levels)⟩ :: p.errors := by
  induction levels generalizing p power with
  | zero =>
    rw [Nat.zero_add] at hr
    rw [nested, Rule.errors_giveUp hp, Place.nextRange, hr, Nat.add_zero]
  | succ levels ih =>
    obtain ⟨rest, offset, errors⟩ := p
    rw [Nat.succ_add, List.replicate_succ] at hr
    obtain rfl : rest = Token.bang :: List.replicate (levels + n) Token.bang := hr
    have he := ih (p := ⟨List.replicate (levels + n) Token.bang, offset + 1, errors⟩) hp rfl 13
    have hl : (leftmost (nested levels)
        (Place.skipTrivia ⟨Token.bang :: List.replicate (levels + n) Token.bang, offset,
          errors⟩)).2 =
          (nested levels (.operand 13)
            ⟨List.replicate (levels + n) Token.bang, offset + 1, errors⟩).2 := rfl
    have ho := errors_operand (reads_nested levels)
      (p := ⟨Token.bang :: List.replicate (levels + n) Token.bang, offset, errors⟩)
      (by rw [hl, Place.gaveUp, he]; rfl) power
    rw [hl, he] at ho
    dsimp only at ho ⊢
    rw [Nat.add_assoc, Nat.add_comm 1 levels] at ho
    exact ho

theorem Grammar.errors_file {p : Place}
    (hg : (onlyIf (fun p => p.peek.isSome) (nested maxDepth .expr) p).2.gaveUp = true) :
    (file p).2.errors = (onlyIf (fun p => p.peek.isSome) (nested maxDepth .expr) p).2.errors := by
  have ht : (seq [report .trailingInput, node .error remaining]).Reads :=
    reads_seq (by simp [reads_report, reads_node])
  have hr : (seq [onlyIf (fun p => p.peek.isSome)
      (seq [report .trailingInput, node .error remaining]), trivia]).Reads :=
    reads_seq (by simp [reads_onlyIf _ ht])
  exact (hr _).errors_eq hg

theorem Grammar.expr_bangs (levels n : Nat) :
    onlyIf (fun p => p.peek.isSome) (nested (levels + 1) .expr)
        (.start (List.replicate (levels + 1 + n) Token.bang)) =
      nested (levels + 1) (.operand 0) (.start (List.replicate (levels + 1 + n) Token.bang)) := by
  rw [Nat.succ_add, List.replicate_succ]
  rfl

theorem Parse.errors_bangs (n : Nat) :
    (parse (String.ofList (List.replicate (maxDepth + n) '!'))).errors =
      [⟨.nestedTooDeeply, Place.nextRangeIn (List.replicate n Token.bang) maxDepth⟩] := by
  have he : (nested maxDepth (.operand 0)
      (.start (List.replicate (maxDepth + n) Token.bang))).2.errors = _ :=
    Grammar.errors_bangs rfl rfl 0
  have hd : 511 + 1 = maxDepth := rfl
  have hfirst := Grammar.expr_bangs 511 n
  rw [hd] at hfirst
  rw [← hfirst] at he
  have hfile := Grammar.errors_file (by rw [Place.gaveUp, he]; rfl)
  rw [parse, Token.lex_bangs, ofTokens]
  dsimp only
  rw [hfile, he]
  simp [Place.start]

theorem Parse.leaf_bangs {n o : Nat} (h : o < n) :
    ∃ l, .leaf l ∈ (parse (String.ofList (List.replicate n '!'))).root.walk ∧
      l.range = ⟨o, o + 1⟩ ∧ l.kind = .bang := by
  have hrooted := Parse.rooted (String.ofList (List.replicate n '!'))
  have hstop : o < (parse (String.ofList (List.replicate n '!'))).root.range.stop := by
    have hsize := congrArg String.utf8ByteSize
      (Token.join_lex (String.ofList (List.replicate n '!')))
    rw [← Token.widthOf_eq, Token.lex_bangs, Token.widthOf_replicate, Token.width_bang,
      Nat.mul_one] at hsize
    rwa [Parse.stop_root, ← hsize]
  obtain ⟨l, hl, hlo⟩ := hrooted.wellPlaced.exists_leaf (Nat.zero_le o) hstop []
  obtain ⟨xs, ys, hlex, -⟩ := Parse.lex_of_leaf hl
  have hmem : l.token ∈ List.replicate n Token.bang := by
    rw [← Token.lex_bangs, hlex]
    simp
  have hbang : l.token = Token.bang := List.eq_of_mem_replicate hmem
  have hwidth := hrooted.leaf_stop hl
  rw [hbang, Token.width_bang] at hwidth
  refine ⟨l, hl, ?_, congrArg Token.kind hbang⟩
  obtain ⟨hstart, hend⟩ := hlo
  have hro : l.range = ⟨l.range.start, l.range.stop⟩ := rfl
  rw [hro, hwidth, Nat.le_antisymm hstart (by omega)]

theorem Parse.nested_too_deeply_bangs :
    (parse (String.ofList (List.replicate 513 '!'))).errors =
      [⟨.nestedTooDeeply, ⟨512, 513⟩⟩] ∧
    ∃ n ∈ (parse (String.ofList (List.replicate 513 '!'))).root.descendants, n.kind = .error ∧
      ∃ l, .leaf l ∈ (parse (String.ofList (List.replicate 513 '!'))).root.walk ∧
        l.range = ⟨512, 513⟩ ∧ ∀ m : Node, .leaf l ∈ m.elements ↔ m = n := by
  have he : (parse (String.ofList (List.replicate 513 '!'))).errors =
      [⟨.nestedTooDeeply, ⟨512, 513⟩⟩] := Parse.errors_bangs 1
  have hsplit : (parse (String.ofList (List.replicate 513 '!'))).errors =
      [] ++ ⟨.nestedTooDeeply, ⟨512, 513⟩⟩ :: [] := he
  obtain ⟨-, -, n, hn, hk, hall⟩ := Parse.nested_too_deeply _ hsplit rfl
  obtain ⟨l, hl, hr, hkl⟩ := Parse.leaf_bangs (n := 513) (o := 512) (by decide)
  refine ⟨he, n, hn, hk, l, hl, hr, hall l hl (by rw [hkl]; rfl) ?_⟩
  rw [hr]

end

end NixScope.Syntax
