import NixScope.Proofs.Elements
import NixScope.Proofs.Nesting

namespace NixScope.Syntax

namespace Tree

open Level Mode

/-- The lexer stands at a level of the code around the tree when it comes to the tree in the text
with these tokens. -/
def Stands (tokens : List Token) (tree : Tree) : Prop :=
  ∃ (before after : List Token) (l : Level) (s : List Mode),
    tokens = before ++ (tree.leaves ++ after) ∧ Lockstep (before.map Token.kind) [] [] ∧
      tree.Within Nests after ∧ l.holds tree.kind = true ∧ Mode.isCode s = true ∧
      l.At s s (tree.leaves ++ after) (run (before.map Token.kind) [])
        (run (before.map Token.kind) [])

variable {tokens : List Token}

theorem AllWithin.balanced {ts : List Tree} {after : List Token} (h : AllWithin Nests ts after) :
    AllBalanced ts after :=
  fun us u vs he => (h us u vs he).balanced

/-- The trees in a node lead on from a level, which is the code around the node or the literal of
an interpolation. -/
theorem Nests.follows {k : Kind} {ts : List Tree} {after : List Token} {l : Level}
    {s s' : List Mode} {ahead : List Token} (h : Nests k ts after) (hl : l.holds k = true)
    (hs : Mode.isCode s = true) (hat : l.At s s ahead s' s') : ∃ m u l', Mode.isCode u = true ∧
      Follows m ts l' ∧ m.At u u ahead s' s' := by
  by_cases hk : k = .interpolation
  · subst hk
    cases l with
    | literal o => exact ⟨.literal o, s, .literal o, hs, h o, hat⟩
    | code => cases hl
    | opened => cases hl
    | hole o => cases hl
  · have hc := isCode_of_holds hl hk
    rw [at_iff_code hc] at hat
    obtain hf | ⟨hf, -⟩ := Nests.of_code h hk
    · exact ⟨.code, l.modes s, _, isCode_modes hc hs, hf, hat⟩
    · exact ⟨.code, l.modes s, _, isCode_modes hc hs, hf, hat⟩

theorem Stands.child {k k' : Kind} {ts us : List Tree} (h : Stands tokens (.branch k ts))
    (hm : .branch k' us ∈ ts) : Stands tokens (.branch k' us) := by
  obtain ⟨before, after, l, s, rfl, hb, hw, hl, hs, hat⟩ := h
  cases hw with
  | branch hn hw =>
    obtain ⟨as, bs, rfl⟩ := List.append_of_mem hm
    have hafter : Rose.leaves (.branch k (as ++ .branch k' us :: bs)) ++ after =
        Rose.leavesOf as ++ (Rose.leavesOf (.branch k' us :: bs) ++ after) := by
      rw [Rose.leaves, Rose.leavesOf_append, List.append_assoc]
    obtain ⟨m, u, l', hu, hf, hat⟩ := Nests.follows hn hl hs hat
    obtain ⟨lv, hfa, hfb⟩ := hf.split
    rw [hafter] at hat ⊢
    obtain ⟨hstep, hat⟩ := follows_balanced hfa (AllWithin.left hw).balanced hu hu hat
    rw [← Mode.run_append, ← List.map_append, Rose.leavesOf, List.append_assoc] at hat
    refine ⟨before ++ Rose.leavesOf as, Rose.leavesOf bs ++ after, lv, u, ?_, ?_, ?_, ?_, hu, hat⟩
    · rw [List.append_assoc, Rose.leavesOf, List.append_assoc]
    · rw [List.map_append]
      exact hb.append hstep
    · exact hw as _ bs rfl
    · cases hfb with
      | branch h hs => exact h

theorem not_isPrefixOf_of_pathEnds {cs : List Char} {s : List Mode}
    (h : pathEnds (Token.lexFrom cs 0 s) = true) : ¬['$', '{'].isPrefixOf cs := by
  intro hp
  cases cs with
  | nil => cases hp
  | cons c cs =>
    rw [Token.lexFrom_cons, (next_dollarBrace hp s).1] at h
    cases h

/-- What the lexer comes to as code it reads as the same tokens without the text around it. -/
theorem Stands.lexFrom_eq {cs : List Char} {k : Kind} {ts : List Tree}
    (h : Stands (Token.lexFrom cs 0 []) (.branch k ts)) (hk : k ≠ .interpolation) :
    Token.lexFrom (Token.chars (Rose.leavesOf ts)) 0 [] = Rose.leavesOf ts := by
  obtain ⟨before, after, l, s, ht, hb, hw, hl, hs, hat⟩ := h
  have hc := isCode_of_holds hl hk
  have hlex := Token.lexFrom_append ht hb
  generalize run (before.map Token.kind) [] = s' at hat hlex
  have hat' : At .code (l.modes s) [] (Rose.leavesOf ts ++ after) s' [] := by
    obtain rfl | ⟨rfl, hp⟩ := hat.left_eq
    · exact .here
    · exact .past rfl hp
  obtain ⟨hstep, hend⟩ := hw.balanced k ts rfl .code _ [] s' [] (holds_code hk)
    (isCode_modes hc hs) rfl hat'
  have hafter := Token.lexFrom_append hlex hstep
  rw [Token.chars_append] at hlex
  refine Token.lexFrom_cut hlex hstep ?_
  obtain he | ⟨he, hp⟩ := hend.left_eq
  · have hcode := isCode_modes hc hs
    exact .inl ((congrArg Mode.isCode he).trans hcode)
  · refine .inr ⟨⟨_, he⟩, ?_⟩
    rw [← hafter] at hp
    exact not_isPrefixOf_of_pathEnds hp

theorem stands_root (tokens : List Token) (h : (Parse.ofTokens tokens).errors = []) :
    Stands tokens (Parse.ofTokens tokens).tree := by
  refine ⟨[], [], .code, [], ?_, trivial, Parse.within_nests tokens h, rfl, rfl, .here⟩
  rw [List.append_nil, List.nil_append, Parse.leaves_ofTokens]

end Tree

namespace Node

theorem stands_of_mem_descendants {tokens : List Token} (h : (Parse.ofTokens tokens).errors = [])
    {n : Node} (hn : n ∈ (Parse.ofTokens tokens).root.descendants) : n.tree.Stands tokens := by
  refine descendants_induct (motive := fun n => n.tree.Stands tokens) ?_ ?_ n hn
  · rw [Parse.tree_root]
    exact Tree.stands_root tokens h
  · intro p c _ hc hp
    rw [Spot.tree_eq] at hp ⊢
    exact hp.child (tree_mem_trees hc)

theorem chars_leaves (n : Node) : Token.chars n.tree.leaves = n.text.toList := by
  suffices h : ∀ (ts : List Token) (s : String),
      (ts.foldl (fun s l => s ++ l.text) s).toList = s.toList ++ Token.chars ts by
    rw [Spot.text, Tree.text, h]
    rfl
  intro ts
  induction ts with
  | nil => simp [Token.chars]
  | cons t ts ih =>
    intro s
    rw [List.foldl_cons, ih, Token.chars_cons, String.toList_append, List.append_assoc]

theorem lex_text {text : String} (h : (parse text).errors = []) {n : Node}
    (hn : n ∈ (parse text).root.descendants) (hk : n.kind ≠ .interpolation) :
    Token.lex n.text = n.tree.leaves := by
  have hs := stands_of_mem_descendants h hn
  rw [Token.lex, ← chars_leaves]
  rw [Spot.tree_eq] at hs ⊢
  exact hs.lexFrom_eq hk

end Node

namespace Grammar

open Rule Place

theorem parses_file : file.Parses := by
  have hx : (nested maxDepth .expr).Parses := parses_expr (Nat.le_refl _)
  have he : (node .error remaining).Parses :=
    parses_node (reads_node (by decide) reads_remaining) rfl
  have ht : (seq [report .trailingInput, node .error remaining]).Parses :=
    (parses_report (by decide)).cons (he.cons .nil)
  exact (hx.onlyIf _).cons ((ht.onlyIf _).cons ((parses_of_flat reads_trivia flat_trivia).cons .nil))

theorem mem_of_mem_file {p : Place} {k : Kind} {us : List Tree} (hm : .branch k us ∈ (file p).1)
    (hk : k.isExpr = true) : .branch k us ∈ (nested maxDepth .expr p).1 := by
  have htrivia : ∀ q, .branch k us ∉ (trivia q).1 := by
    intro q hm
    obtain ⟨o, ho⟩ := flat_trivia q _ hm
    cases ho
  have herror : ∀ q, .branch k us ∉ (seq [.report .trailingInput, node .error remaining] q).1 := by
    intro q hm
    simp only [seq_cons_apply, seq_nil_apply, List.append_nil, report_apply, List.nil_append] at hm
    obtain ⟨rfl, -⟩ := Rose.branch.inj (List.mem_singleton.mp (mem_of_mem_trivia hm))
    cases hk
  simp only [file, seq_cons_apply, seq_nil_apply, List.append_nil, List.mem_append, htrivia,
    or_false] at hm
  obtain hm | hm := hm
  · rw [onlyIf] at hm
    split at hm
    · exact hm
    · cases hm
  · rw [onlyIf] at hm
    split at hm
    · exact absurd hm (herror _)
    · cases hm

theorem isStatement_of_expr {l : Nat} {p : Place} (hp : p.peek.any Kind.startsStatement = true)
    {k : Kind} {us : List Tree} (hm : .branch k us ∈ (nested (l + 1) .expr p).1) :
    k.isStatement = true := by
  have hnode : ∀ {kind : Kind} {r : Rule}, kind.isStatement = true →
      .branch k us ∈ (node kind r p).1 → k.isStatement = true := by
    intro kind r hk hm
    obtain ⟨rfl, -⟩ := Rose.branch.inj (List.mem_singleton.mp (mem_of_mem_trivia hm))
    exact hk
  obtain ⟨r, hr, he⟩ := expr_choice (nested l) p
  have hm : .branch k us ∈ (r p).1 := he ▸ hm
  cases hr with
  | letIn hp => exact hnode rfl hm
  | withIn hp => exact hnode rfl hm
  | assert hp => exact hnode rfl hm
  | ifElse hp => exact hnode rfl hm
  | nameLambda hk hc => simp [hk, Kind.startsStatement] at hp
  | namedPattern hk hc => simp [hk, Kind.startsStatement] at hp
  | pattern hk ha => simp [hk, Kind.startsStatement] at hp
  | operand hk hn => simp [hk] at hp

end Grammar

theorem Tree.kind_of_attr {ts us : List Tree} {k : Kind} (h : Tree.Formed .attr ts)
    (hm : .branch k us ∈ ts) (hk : k.isExpr = true) : k = .string := by
  obtain ⟨form, hform, hf⟩ := h
  have hm : .branch k us ∈ solid ts := List.mem_filter.mpr ⟨hm, rfl⟩
  generalize solid ts = vs at hf hm
  have hone : ∀ part, Form.Fits [.one [part]] vs → part.fits (.branch k us) = true := by
    intro part hf
    cases hf with
    | one ht hs =>
      cases hs
      obtain rfl := List.mem_singleton.mp hm
      simpa using ht
  simp only [Kind.forms, List.mem_cons, List.not_mem_nil, or_false] at hform
  obtain rfl | rfl | rfl | rfl := hform
  · cases hone _ hf
  · cases hone _ hf
  · exact beq_iff_eq.mp (hone _ hf)
  · obtain rfl := beq_iff_eq.mp (hone _ hf)
    cases hk

namespace Parse

theorem everywhere_parsed (tokens : List Token) (h : (ofTokens tokens).errors = []) :
    (ofTokens tokens).root.tree.Everywhere fun kind ts => kind ≠ .attr →
      ∀ k us, .branch k us ∈ ts → k.isExpr = true → Tree.Parsed (.branch k us) := by
  have hclean : (Grammar.file (.start tokens)).2.errors = [] := List.reverse_eq_nil_iff.mp h
  rw [tree_root]
  refine .branch (fun _ => Grammar.parses_file.parsed _ hclean) fun t ht => ?_
  obtain ⟨us, vs, he⟩ := List.append_of_mem ht
  refine ((allWithin_content tokens us t vs he).mono ?_).everywhere
  rintro k ts after ⟨levels, p, q, -, hp, hq, -, hs⟩ ha j us hm hj
  exact hp.parsed levels.isLt hs (hq.clean hclean) ha hm hj

end Parse

/-- An expression other than the spelling of an attribute has been read as one. -/
theorem Node.parsed {text : String} (h : (parse text).errors = []) {n : Node}
    (hn : n ∈ (parse text).root.descendants) (hx : n.kind.isExpr = true)
    (ha : ¬(n.kind = .string ∧ n.parent?.any (·.kind == .attr) = true)) : n.tree.Parsed := by
  obtain rfl | ⟨p, hp, hc⟩ := exists_parent hn
  · cases hx
  have hm := tree_mem_trees hc
  rw [Spot.tree_eq]
  refine everywhere_of_mem_descendants (Parse.everywhere_parsed _ h) hp ?_ _ _ hm hx
  intro hk
  apply ha
  rw [parent?_of_mem_nodes hc]
  refine ⟨?_, by simp [hk]⟩
  have hf := everywhere_of_mem_descendants (Parse.everywhere_formed _ h) hp
  rw [hk] at hf
  exact Tree.kind_of_attr hf hm hx

/-- An expression of a text without problems is, by itself, a text without problems and with the
tree of the expression. Only what begins with a keyword but belongs to no keyword is not: by itself
it is an expression of the keyword that takes in more. -/
theorem parse_text_iff (text : String) (h : (parse text).errors = []) (n : Node)
    (hn : n ∈ (parse text).root.descendants) (hx : n.kind.isExpr = true)
    (ha : ¬(n.kind = .string ∧ n.parent?.any (·.kind == .attr) = true)) :
    parse n.text = ⟨[n.tree], []⟩ ↔ n.kind.isStatement = true ∨
      (n.tree.leaves.head?.map Token.kind).any Kind.startsStatement = false := by
  have hkind : n.tree.kind = n.kind := by rw [Spot.tree_eq]; rfl
  have hlex := Node.lex_text h hn (by rintro hk; simp [hk, Kind.isExpr] at hx)
  obtain ⟨l, p, q, ho, hs, hq⟩ := Node.parsed h hn hx ha
  rw [parse, hlex]
  constructor
  · intro hp
    rw [Classical.or_iff_not_imp_right, Bool.not_eq_false]
    intro hk
    have hm : .branch n.kind n.trees ∈ (Grammar.file (.start n.tree.leaves)).1 := by
      rw [← Spot.tree_eq]
      have hc := congrArg Parse.content hp
      change (Grammar.file (.start n.tree.leaves)).1 = [n.tree] at hc
      rw [hc]
      exact List.mem_singleton_self _
    refine Grammar.isStatement_of_expr ?_ (Grammar.mem_of_mem_file hm hx)
    rwa [ho.peek_start hs]
  · intro hk
    obtain ⟨q', hc, he⟩ := ho.alone hs hq (by rwa [hkind])
    exact Parse.ofTokens_of_expr (by simpa using hc.rest) hc.clean he

theorem parse_text_iff_path :
    (parse "x: [ (f ./a/${b}/c) ]").errors = [] ∧
      ∃ n ∈ (parse "x: [ (f ./a/${b}/c) ]").root.descendants, n.kind = .apply ∧
        parse n.text = ⟨[n.tree], []⟩ := by
  have hclean : (parse "x: [ (f ./a/${b}/c) ]").errors = [] := by decide +kernel
  obtain ⟨n, hn, hk, hs⟩ : ∃ n ∈ (parse "x: [ (f ./a/${b}/c) ]").root.descendants,
      n.kind = .apply ∧
        (n.tree.leaves.head?.map Token.kind).any Kind.startsStatement = false := by
    decide +kernel
  have hp := (parse_text_iff _ hclean n hn (by rw [hk]; rfl) (by simp [hk])).mpr (.inr hs)
  exact ⟨hclean, n, hn, hk, hp⟩

/-- An application whose function is an expression of a keyword, as an operand: by itself the
keyword takes in no argument, and the argument is left over. -/
theorem parse_text_keyword :
    (parse "!let in a ? b c").errors = [] ∧
      ∃ n ∈ (parse "!let in a ? b c").root.descendants, n.kind.isExpr = true ∧
        ¬(n.kind = .string ∧ n.parent?.any (·.kind == .attr) = true) ∧
        (parse n.text).errors ≠ [] := by
  decide +kernel

end NixScope.Syntax
