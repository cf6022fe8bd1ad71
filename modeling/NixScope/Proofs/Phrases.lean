import NixScope.Proofs.Rebuilds

namespace NixScope.Syntax

namespace Token

theorem blank_space : Blank [space] := by simp [Blank, space, isTrivia, Kind.isTrivia]

end Token

namespace Tree

def paren (t : Tree) : Tree := .branch .paren [.leaf Token.leftParen, t, .leaf Token.rightParen]

def spaced (t : Tree) : List Tree := [.leaf Token.space, t]

def default (t : Tree) : List Tree := spaced (.leaf (Token.word "or")) ++ spaced (paren t)

def definition (a v : Tree) : Tree :=
  .branch .attrPathValue (.branch .attrPath [a] :: spaced (.leaf Token.assign) ++ spaced v ++
    [.leaf Token.semicolon])

def inheritance (a : Tree) : Tree :=
  .branch .inherit (.leaf (Token.word "inherit") :: spaced (.branch .inheritedName [a]) ++
    [.leaf Token.semicolon])

def apply (f x : Tree) : Tree := .branch .apply (paren f :: spaced (paren x))

def letIn (a v b : Tree) : Tree :=
  .branch .letIn (.leaf (Token.word "let") :: spaced (definition a v) ++
    spaced (.leaf (Token.word "in")) ++ spaced b)

def withIn (v b : Tree) : Tree :=
  .branch .withIn (.leaf (Token.word "with") :: spaced (paren v) ++ .leaf Token.semicolon :: spaced b)

def recSet (a v b : Tree) : Tree :=
  .branch .attrSet (.leaf (Token.word "rec") :: spaced (.leaf Token.leftBrace) ++
    spaced (definition a v) ++ spaced (inheritance b) ++ spaced (.leaf Token.rightBrace))

def paramName (t : Token) : Tree := .branch .paramName [.leaf t]

def nameLambda (t : Token) (b : Tree) : Tree :=
  .branch .lambda (paramName t :: .leaf Token.colon :: spaced b)

def pattern (t u : Token) (v : Tree) : Tree :=
  .branch .pattern (.leaf Token.leftBrace :: spaced (.branch .patternEntry [paramName t]) ++
    .leaf Token.comma :: spaced (.branch .patternEntry
      (paramName u :: spaced (.leaf Token.question) ++ spaced v)) ++
    .leaf Token.comma :: spaced (.leaf Token.ellipsis) ++ spaced (.leaf Token.rightBrace))

def patternLambda (t u : Token) (v b : Tree) : Tree :=
  .branch .lambda (pattern t u v :: .leaf Token.colon :: spaced b)

def items (ts : List Tree) : List Tree := ts.flatMap fun t => spaced (paren t)

/-- A list of items in parentheses. Without items, the two blanks in it are one. -/
def list (ts : List Tree) : Tree :=
  .branch .list (.leaf Token.leftBracket :: items ts ++
    [.leaf (if ts = [] then ⟨.whitespace, "  "⟩ else Token.space), .leaf Token.rightBracket])

section

open Token

variable (a v b t : Tree) (x y : Token) (ts : List Tree)

theorem leaves_paren : (paren t).leaves = leftParen :: (t.leaves ++ [rightParen]) := by
  simp [paren, Rose.leaves, Rose.leavesOf]

theorem leavesOf_default : Rose.leavesOf (default t) =
    space :: word "or" :: space :: leftParen :: (t.leaves ++ [rightParen]) := by
  simp [default, spaced, paren, Rose.leaves, Rose.leavesOf]

theorem leaves_apply : (apply t v).leaves =
    leftParen :: (t.leaves ++ rightParen :: space :: leftParen :: (v.leaves ++ [rightParen])) := by
  simp [apply, spaced, paren, Rose.leaves, Rose.leavesOf]

theorem leaves_letIn : (letIn a v b).leaves = word "let" :: space :: (a.leaves ++
    space :: assign :: space :: (v.leaves ++
      semicolon :: space :: word "in" :: space :: b.leaves)) := by
  simp [letIn, definition, spaced, Rose.leaves, Rose.leavesOf]

theorem leaves_withIn : (withIn v b).leaves = word "with" :: space :: leftParen :: (v.leaves ++
    rightParen :: semicolon :: space :: b.leaves) := by
  simp [withIn, paren, spaced, Rose.leaves, Rose.leavesOf]

theorem leaves_recSet : (recSet a v b).leaves = word "rec" :: space :: leftBrace :: space ::
    (a.leaves ++ space :: assign :: space :: (v.leaves ++
      semicolon :: space :: word "inherit" :: space :: (b.leaves ++
        [semicolon, space, rightBrace]))) := by
  simp [recSet, definition, inheritance, spaced, Rose.leaves, Rose.leavesOf]

theorem leaves_nameLambda : (nameLambda x b).leaves = x :: colon :: space :: b.leaves := by
  simp [nameLambda, paramName, spaced, Rose.leaves, Rose.leavesOf]

theorem leaves_patternLambda : (patternLambda x y v b).leaves = leftBrace :: space :: x :: comma ::
    space :: y :: space :: question :: space :: (v.leaves ++
      comma :: space :: ellipsis :: space :: rightBrace :: colon :: space :: b.leaves) := by
  simp [patternLambda, pattern, paramName, spaced, Rose.leaves, Rose.leavesOf]

theorem leaves_list : (list ts).leaves = leftBracket :: (Rose.leavesOf (items ts) ++
    [if ts = [] then ⟨.whitespace, "  "⟩ else space, rightBracket]) := by
  simp [list, Rose.leavesOf_append, Rose.leaves, Rose.leavesOf]

theorem leavesOf_items_cons : Rose.leavesOf (items (t :: ts)) =
    space :: leftParen :: (t.leaves ++ rightParen :: Rose.leavesOf (items ts)) := by
  simp [items, spaced, paren, Rose.leaves, Rose.leavesOf]

end

theorem width_paren (t : Tree) : (paren t).width = 1 + t.width + 1 := by
  rw [paren, width_branch, widthOf_cons, widthOf_cons, ← Nat.add_assoc]
  rfl

theorem width_definition (a v : Tree) :
    (definition a v).width = Tree.width (.branch .attrPath [a]) + 3 + v.width + 1 := by
  simp only [definition, spaced, width_branch, widthOf_cons, List.cons_append, List.nil_append,
    ← Nat.add_assoc]
  rfl

theorem aheadIn_spaced {t : Tree} {k : Kind} (ho : opening [t] = some k) (hk : k.isTrivia = false)
    (rest : List Token) : Place.aheadIn (Rose.leavesOf (spaced t) ++ rest) 0 = some k := by
  rw [← aheadIn_of_opening ho hk rest]
  rfl

theorem opening_definition {a : Tree} {k : Kind} (ho : opening [a] = some k) (v : Tree) :
    opening [definition a v] = some k :=
  (opening_branch _ _).trans (opening_cons ((opening_branch _ _).trans ho) _)

end Tree

namespace Grammar

open Rule Token Syntax.Tree Place

variable {l : Nat} {ws : List Token} {ok ok' : List Token → Prop} {a e v b : Tree}

theorem ended_cons {t : Token} (h : t.kind.endsExpr = true) (rest : List Token) :
    Ended (t :: rest) := by
  have ht : t.isTrivia = false := by
    rw [isTrivia]
    cases hk : t.kind <;> first | rfl | simp [hk, Kind.endsExpr] at h
  rw [Ended, aheadIn_cons ht, Option.all_some, h]

theorem rebuilds_paren (hw : Blank ws) (he : (nested l .expr).Rebuilds [e] Ended) :
    (nested (l + 1) .atom).Rebuilds (ws.map .leaf ++ [paren e]) fun _ => True := by
  have hclose := he.cons (rebuilds_expect blank_nil (t := rightParen) rfl).single
    fun rest _ => ended_cons rfl rest
  have hseq := (rebuilds_token blank_nil (t := leftParen) rfl).cons_any hclose
  exact Rebuilds.atom (hseq.node hw rfl rfl .paren) hw rfl rfl .paren

theorem rebuilds_integer (hw : Blank ws) {t : Token} (ht : t.kind = .integer) :
    (nested (l + 1) .atom).Rebuilds (ws.map .leaf ++ [.branch .literal [.leaf t]]) fun _ => True := by
  have htriv : t.isTrivia = false := by
    rw [isTrivia, ht]
    rfl
  have ho : opening [.branch .literal [.leaf t]] = some t.kind := rfl
  have hr := (rebuilds_token blank_nil htriv).node hw rfl htriv .literal
  exact Rebuilds.atom hr hw (ho.trans (congrArg some ht)) rfl (.literal (by decide))

theorem rebuilds_quoted (hw : Blank ws) (cs : List Char) :
    (nested (l + 1) .atom).Rebuilds
      (ws.map .leaf ++ [.branch .string ((quoted cs).map .leaf)]) fun _ => True :=
  Rebuilds.atom (rebuilds_string hw cs) hw rfl rfl (.string (.inl rfl))

theorem rebuilds_expr_atom {k : Kind} (hw : Blank ws) (ho : opening [a] = some k)
    (hk : k.startsArgument = true) (hatom : (nested l .atom).Rebuilds [a] fun _ => True)
    (hl : ∀ rest offset, Ended rest → lambdaAhead ⟨Rose.leavesOf [a] ++ rest, offset, []⟩ = false) :
    (nested (l + 1) .expr).Rebuilds (ws.map .leaf ++ [a]) Ended :=
  rebuilds_expr_select hw ho hk
    (rebuilds_select_atom blank_nil ho (not_isTrivia_of_startsArgument hk) hatom)
    (fun _ hr => hr.ne rfl) hl

theorem rebuilds_expr_var {t : Token} (hw : Blank ws) (ht : t.kind = .ident) :
    (nested (l + 2) .expr).Rebuilds (ws.map .leaf ++ [.branch .var [.leaf t]]) Ended := by
  have ho : opening [.branch .var [.leaf t]] = some .ident := congrArg some ht
  refine rebuilds_expr_atom hw ho rfl (rebuilds_var blank_nil ht) fun rest offset hr => ?_
  exact lambdaAhead_of_ident ht (hr.ne rfl) (hr.ne rfl) offset

theorem lambdaAhead_of_opening {ts : List Tree} {k : Kind} (ho : opening ts = some k)
    (hk : k.isTrivia = false) (hi : k ≠ .ident) (hb : k ≠ .leftBrace) (rest : List Token)
    (offset : Nat) : lambdaAhead ⟨Rose.leavesOf ts ++ rest, offset, []⟩ = false := by
  have hp : peek ⟨Rose.leavesOf ts ++ rest, offset, []⟩ = some k := aheadIn_of_opening ho hk rest
  rw [lambdaAhead, hp]
  cases k <;> first | rfl | contradiction

theorem rebuilds_apply (hw : Blank ws) (hf : (nested l .expr).Rebuilds [e] Ended)
    (hx : (nested l .expr).Rebuilds [v] Ended) :
    (nested (l + 2) .expr).Rebuilds (ws.map .leaf ++ [Tree.apply e v]) Ended := by
  have hfun := rebuilds_select_atom (l := l + 1) blank_nil rfl rfl (rebuilds_paren blank_nil hf)
  have harg := rebuilds_select_atom (l := l + 1) blank_space rfl rfl (rebuilds_paren blank_nil hx)
  have hnil : (arguments (nested (l + 1)) [Tree.apply e v]).Makes [] [Tree.apply e v] Ended :=
    (makes_arguments_nil _).mono fun _ hr => hr.not_startsArgument
  have hargs := makes_arguments_cons [paren e] (fun _ => rfl) rfl harg hnil
    fun _ hr => hr.ne rfl
  refine rebuilds_expr hw rfl rfl hfun hargs ?_ ?_ fun rest offset _ =>
    lambdaAhead_of_opening rfl rfl (by decide) (by decide) rest offset
  · simp [Rose.leavesOf, Rose.leaves, Tree.apply, spaced]
  · intro rest _ hd
    cases hd

theorem rebuilds_default (he : (nested l .expr).Rebuilds [e] Ended) :
    (Rule.when .orKw (.seq [.token, select (nested (l + 1))])).Rebuilds (default e) fun rest =>
      aheadIn rest 0 ≠ some .dot := by
  have hd := rebuilds_select_atom (l := l + 1) blank_space rfl rfl (rebuilds_paren blank_nil he)
  have hseq := (rebuilds_token blank_space (t := word "or") rfl).cons_any hd.single
  exact hseq.when fun _ _ => rfl

theorem rebuilds_definition (hw : Blank ws) (ha : AttrTree a)
    (hv : (nested l .expr).Rebuilds (spaced v) Ended) :
    (attrPathValue (nested l)).Rebuilds (ws.map .leaf ++ [definition a v]) fun _ => True := by
  obtain ⟨k, ho, hk⟩ := ha.starts
  have hend := hv.cons (rebuilds_expect blank_nil (t := semicolon) rfl).single
    fun rest _ => ended_cons rfl rest
  have hassign := (rebuilds_expect blank_space (t := assign) rfl).cons_any hend
  have hnone : ∀ b ∈ ([] : List Tree), AttrTree b := by simp
  have hseq := (rebuilds_attrPath (l := l) blank_nil ha hnone).cons hassign fun _ _ => nofun
  exact hseq.node hw (opening_cons ((opening_branch _ _).trans ho) _)
    (not_isTrivia_of_startsAttr hk) .attrPathValue

theorem rebuilds_inheritance (hw : Blank ws) (ha : AttrTree a) :
    (inherit (nested l)).Rebuilds (ws.map .leaf ++ [inheritance a]) fun _ => True := by
  obtain ⟨k, ho, hk⟩ := ha.starts
  have htriv := not_isTrivia_of_startsAttr hk
  have hname : (node .inheritedName (attr (nested l))).Rebuilds
      (spaced (.branch .inheritedName [a])) fun _ => True :=
    (ha.rebuilds blank_nil).node blank_space ho htriv .inheritedName
  have hnil : (many (inheritedName (nested l))).Rebuilds [] fun rest =>
      aheadIn rest 0 = some .semicolon :=
    rebuilds_many_nil (advances_inheritedName (reads_nested l)) fun p hp => by
      simp [inheritedName, peek, ahead, hp, Kind.startsAttr]
  have hnames : (many (inheritedName (nested l))).Rebuilds (spaced (.branch .inheritedName [a]))
      fun rest => aheadIn rest 0 = some .semicolon := by
    refine Rebuilds.many_cons (advances_inheritedName (reads_nested l)) hname (fun p rest hp => ?_)
      hnil fun _ _ => trivial
    refine if_pos ?_
    rw [peek, ahead, hp, aheadIn_spaced ((opening_branch _ _).trans ho) htriv, Option.any_some, hk]
  have hnone : (Rule.when .leftParen (node .inheritFrom
      (seq [token, nested l .expr, expect .rightParen]))).Rebuilds [] fun rest =>
        aheadIn rest 0 = some k :=
    (rebuilds_when_neg _ _).mono fun rest hr hp => by
      rw [hr] at hp
      cases hp
      cases hk
  have hend := hnames.cons (rebuilds_expect blank_nil (t := semicolon) rfl).single fun _ _ => rfl
  have hrest := hnone.cons hend fun rest _ => by
    rw [Rose.leavesOf_append, List.append_assoc]
    exact aheadIn_spaced ((opening_branch _ _).trans ho) htriv _
  have hseq := (rebuilds_token blank_nil (t := word "inherit") rfl).cons_any hrest
  exact hseq.node hw rfl rfl .inherit

theorem binding_of_attr {terminator k : Kind} {p : Place} (hp : p.peek = some k)
    (hk : k.startsAttr = true) (ht : terminator.startsAttr = false) :
    binding (nested l) terminator p = some (attrPathValue (nested l)) := by
  rw [binding, hp, Option.bind_some, if_neg, if_neg, if_pos hk]
  · rintro rfl
    cases hk
  · rintro rfl
    rw [hk] at ht
    cases ht

theorem rebuilds_bindings_nil (terminator : Kind) :
    (many (binding (nested l) terminator)).Rebuilds [] fun rest =>
      aheadIn rest 0 = some terminator :=
  rebuilds_many_nil (advances_binding (reads_nested l) terminator) fun p hp => by
    rw [binding, peek, ahead, hp, Option.bind_some, if_pos rfl]

theorem rebuilds_bindings_definition (terminator : Kind) {bs : List Tree}
    (ht : terminator.startsAttr = false) (ha : AttrTree a)
    (hv : (nested l .expr).Rebuilds (spaced v) Ended)
    (hbs : (many (binding (nested l) terminator)).Rebuilds bs ok) :
    (many (binding (nested l) terminator)).Rebuilds (spaced (definition a v) ++ bs) ok := by
  refine Rebuilds.many_cons (advances_binding (reads_nested l) terminator)
    (rebuilds_definition blank_space ha hv) (fun p rest hp => ?_) hbs fun _ _ => trivial
  obtain ⟨k, ho, hk⟩ := ha.starts
  refine binding_of_attr (k := k) ?_ hk ht
  rw [peek, ahead, hp]
  exact aheadIn_spaced (opening_definition ho v) (not_isTrivia_of_startsAttr hk) rest

theorem rebuilds_bindings_inheritance (terminator : Kind) {bs : List Tree}
    (ht : terminator ≠ .inheritKw) (ha : AttrTree a)
    (hbs : (many (binding (nested l) terminator)).Rebuilds bs ok) :
    (many (binding (nested l) terminator)).Rebuilds (spaced (inheritance a) ++ bs) ok := by
  have hone : (inherit (nested l)).Rebuilds (spaced (inheritance a)) fun _ => True :=
    rebuilds_inheritance blank_space ha
  refine Rebuilds.many_cons (advances_binding (reads_nested l) terminator) hone
    (fun p rest hp => ?_) hbs fun _ _ => trivial
  have hpeek : p.peek = some .inheritKw := by
    rw [peek, ahead, hp]
    rfl
  rw [binding, hpeek, Option.bind_some, if_neg (Ne.symm ht), if_pos rfl]

theorem rebuilds_letIn (hw : Blank ws) (ha : AttrTree a)
    (hv : (nested l .expr).Rebuilds (spaced v) Ended)
    (hb : (nested l .expr).Rebuilds (spaced b) Ended) :
    (nested (l + 1) .expr).Rebuilds (ws.map .leaf ++ [Tree.letIn a v b]) Ended := by
  have hin := (rebuilds_expect blank_space (t := word "in") rfl).cons_any hb.single
  have hdef := rebuilds_bindings_definition .inKw rfl ha hv (rebuilds_bindings_nil .inKw)
  have hseq := (rebuilds_token blank_nil (t := word "let") rfl).cons_any
    (hdef.cons hin fun _ _ => rfl)
  exact Rebuilds.expr (hseq.node hw rfl rfl .letIn) hw fun _ _ _ => .letIn rfl

theorem rebuilds_withIn (hw : Blank ws) (hv : (nested l .expr).Rebuilds [v] Ended)
    (hb : (nested (l + 2) .expr).Rebuilds (spaced b) Ended) :
    (nested (l + 3) .expr).Rebuilds (ws.map .leaf ++ [Tree.withIn v b]) Ended := by
  have hsource := rebuilds_expr_atom (l := l + 1) blank_space rfl rfl (rebuilds_paren blank_nil hv)
    fun rest offset _ => lambdaAhead_of_opening rfl rfl (by decide) (by decide) rest offset
  have hbody := (rebuilds_expect blank_nil (t := semicolon) rfl).cons_any hb.single
  have hseq := (rebuilds_token blank_nil (t := word "with") rfl).cons_any
    (hsource.cons hbody fun rest _ => ended_cons rfl _)
  exact Rebuilds.expr (hseq.node hw rfl rfl .withIn) hw fun _ _ _ => .withIn rfl

theorem rebuilds_recSet (hw : Blank ws) (ha : AttrTree a)
    (hv : (nested l .expr).Rebuilds (spaced v) Ended) (hb : AttrTree b) :
    (nested (l + 2) .expr).Rebuilds (ws.map .leaf ++ [Tree.recSet a v b]) Ended := by
  have hclose := (rebuilds_expect blank_space (t := rightBrace) rfl).single
  have hbindings := rebuilds_bindings_definition .rightBrace rfl ha hv
    (rebuilds_bindings_inheritance .rightBrace (by decide) hb (rebuilds_bindings_nil .rightBrace))
  have hopen := (rebuilds_expect blank_space (t := leftBrace) rfl).cons_any
    (hbindings.cons hclose fun _ _ => rfl)
  have hrec := (rebuilds_token blank_nil (t := word "rec") rfl).when (k := .recKw) fun _ _ => rfl
  have hset := (hrec.cons_any hopen).node blank_nil rfl rfl .attrSet
  have hatom := Rebuilds.atom hset blank_nil rfl rfl (.attrSet (.inr rfl))
  exact rebuilds_expr_atom hw rfl rfl hatom fun rest offset _ =>
    lambdaAhead_of_opening rfl rfl (by decide) (by decide) rest offset

theorem rebuilds_paramName {t : Token} (hw : Blank ws) (ht : t.kind = .ident) :
    paramName.Rebuilds (ws.map .leaf ++ [Tree.paramName t]) fun _ => True := by
  have htriv : t.isTrivia = false := by
    rw [isTrivia, ht]
    rfl
  exact (rebuilds_token blank_nil htriv).node hw rfl htriv .paramName

theorem rebuilds_nameLambda {t : Token} (ht : t.kind = .ident)
    (hb : (nested l .expr).Rebuilds (spaced b) Ended) :
    (nested (l + 1) .expr).Rebuilds [Tree.nameLambda t b] Ended := by
  have htriv : t.isTrivia = false := by
    rw [isTrivia, ht]
    rfl
  have hcolon := (rebuilds_token blank_nil (t := colon) rfl).cons_any hb.single
  have hseq := ((rebuilds_paramName blank_nil ht).cons_any hcolon).node blank_nil rfl htriv .lambda
  refine Rebuilds.expr hseq blank_nil fun rest offset _ => .nameLambda ?_ ?_
  · exact (aheadIn_cons htriv _).trans (congrArg some ht)
  · exact aheadIn_cons_succ htriv _ 0

section

variable {ts us : List Tree} {k : Kind}
  (ho : ∀ rest, aheadIn (Rose.leavesOf ts ++ rest) 0 = some k) (hk : k ≠ .rightBrace)

include ho hk

theorem rebuilds_formals_last (h : (formal (nested l) k).Rebuilds ts fun _ => True) :
    (formals (nested l)).Rebuilds ts fun rest => aheadIn rest 0 ≠ some .comma := by
  have hseq := h.cons_any (rebuilds_when_neg .comma (seq [token, formals (nested l)])).single
  rw [List.append_nil] at hseq
  exact hseq.congr fun rest offset _ => formals_more (consistent_of_clean rfl) (ho rest) hk

theorem rebuilds_formals_cons (h : (formal (nested l) k).Rebuilds ts ok)
    (hok : ∀ rest, ok (comma :: rest)) (hmore : (formals (nested l)).Rebuilds us ok') :
    (formals (nested l)).Rebuilds (ts ++ .leaf comma :: us) ok' := by
  have hcomma := ((rebuilds_token blank_nil (t := comma) rfl).cons_any hmore.single).when
    (k := .comma) fun _ _ => rfl
  have hseq := h.cons hcomma.single fun rest _ => hok _
  refine hseq.congr fun rest offset _ => formals_more (consistent_of_clean rfl) ?_ hk
  rw [peek, ahead, Rose.leavesOf_append, List.append_assoc, ho]

end

theorem rebuilds_entry {t : Token} (hw : Blank ws) (ht : t.kind = .ident) :
    (formal (nested l) .ident).Rebuilds
      (ws.map .leaf ++ [.branch .patternEntry [Tree.paramName t]]) fun rest =>
        aheadIn rest 0 ≠ some .question := by
  have htriv : t.isTrivia = false := by
    rw [isTrivia, ht]
    rfl
  have hseq := (rebuilds_paramName blank_nil ht).cons_any
    (rebuilds_when_neg .question (seq [token, nested l .expr])).single
  exact hseq.node hw rfl htriv .patternEntry

theorem rebuilds_entry_default {t : Token} (hw : Blank ws) (ht : t.kind = .ident)
    (hv : (nested l .expr).Rebuilds (spaced v) Ended) :
    (formal (nested l) .ident).Rebuilds (ws.map .leaf ++ [.branch .patternEntry
      (Tree.paramName t :: spaced (.leaf question) ++ spaced v)]) Ended := by
  have htriv : t.isTrivia = false := by
    rw [isTrivia, ht]
    rfl
  have hdefault := ((rebuilds_token blank_space (t := question) rfl).cons_any hv.single).when
    (k := .question) fun _ _ => rfl
  have hseq := (rebuilds_paramName blank_nil ht).cons_any hdefault.single
  exact hseq.node hw rfl htriv .patternEntry

theorem rebuilds_pattern {t u : Token} (ht : t.kind = .ident) (hu : u.kind = .ident)
    (hv : (nested l .expr).Rebuilds (spaced v) Ended) :
    (pattern (nested l)).Rebuilds [Tree.pattern t u v] fun rest =>
      aheadIn rest 0 ≠ some .atSign := by
  have ho : ∀ {t : Token} {us : List Tree}, t.kind = .ident → ∀ rest,
      aheadIn (Rose.leavesOf (spaced (.branch .patternEntry (Tree.paramName t :: us))) ++ rest) 0 =
        some .ident := by
    intro t us ht rest
    have hopen : opening [.branch .patternEntry (Tree.paramName t :: us)] = some t.kind := rfl
    exact aheadIn_spaced (hopen.trans (congrArg some ht)) rfl rest
  have htoken : (formal (nested l) .ellipsis).Rebuilds (spaced (.leaf ellipsis)) fun _ => True :=
    rebuilds_token blank_space rfl
  have hdots := rebuilds_formals_last (fun _ => rfl) (by decide) htoken
  have hsecond := rebuilds_formals_cons (ho hu) (by decide)
    (rebuilds_entry_default blank_space hu hv) (ended_cons rfl) hdots
  have hfirst := rebuilds_formals_cons (ho ht) (by decide)
    (rebuilds_entry blank_space ht) (fun _ => nofun) hsecond
  have hclose := (rebuilds_expect blank_space (t := rightBrace) rfl).cons_any
    (rebuilds_when_neg .atSign patternName).single
  have hopen := (rebuilds_expect blank_nil (t := leftBrace) rfl).cons_any
    (hfirst.cons hclose fun _ _ => nofun)
  have hseq := (rebuilds_when_neg .ident (node .patternBind (seq [paramName, expect .atSign]))).cons
    hopen fun _ _ => nofun
  exact hseq.node blank_nil rfl rfl .pattern

theorem rebuilds_patternLambda {t u : Token} (ht : t.kind = .ident) (hu : u.kind = .ident)
    (hv : (nested l .expr).Rebuilds (spaced v) Ended)
    (hb : (nested l .expr).Rebuilds (spaced b) Ended) :
    (nested (l + 1) .expr).Rebuilds [Tree.patternLambda t u v b] Ended := by
  have htriv : t.isTrivia = false := by
    rw [isTrivia, ht]
    rfl
  have hcolon := (rebuilds_expect blank_nil (t := colon) rfl).cons_any hb.single
  have hseq := (rebuilds_pattern ht hu hv).cons hcolon fun _ _ hd => by cases hd
  refine Rebuilds.expr (hseq.node blank_nil rfl rfl .lambda) blank_nil fun rest offset _ => ?_
  have hname : ∀ ts n, aheadIn (leftBrace :: space :: t :: ts) (n + 2) = aheadIn ts n := by
    intro ts n
    rw [aheadIn_cons_succ rfl]
    exact aheadIn_cons_succ htriv ts n
  refine .pattern rfl (patternAhead_iff.mpr (.inr (.inr ⟨?_, .inl ?_⟩)))
  · exact (aheadIn_cons htriv _).trans (congrArg some ht)
  · exact hname _ 0

theorem rebuilds_items {ts : List Tree} (h : ∀ t ∈ ts, (nested l .expr).Rebuilds [t] Ended) :
    (many (listElement (nested (l + 1)))).Rebuilds (items ts) fun rest =>
      aheadIn rest 0 = some .rightBracket := by
  have ha := advances_listElement (reads_nested (l + 1)) (starts_nested (l + 1))
  induction ts with
  | nil =>
    refine rebuilds_many_nil ha fun p hp => ?_
    rw [listElement, peek, ahead, hp]
    rfl
  | cons t ts ih =>
    obtain ⟨ht, hts⟩ := List.forall_mem_cons.mp h
    have hitem := rebuilds_select_atom (l := l + 1) blank_space rfl rfl (rebuilds_paren blank_nil ht)
    refine Rebuilds.many_cons ha hitem (fun p rest hp => ?_) (ih hts) fun rest hr => ?_
    · rw [listElement, peek, ahead, hp]
      rfl
    · cases ts with
      | nil =>
        intro hd
        rw [show aheadIn rest 0 = some .dot from hd] at hr
        cases hr
      | cons u us =>
        intro hd
        cases hd

theorem rebuilds_list {ts : List Tree} (hw : Blank ws)
    (h : ∀ t ∈ ts, (nested l .expr).Rebuilds [t] Ended) :
    (nested (l + 3) .expr).Rebuilds (ws.map .leaf ++ [Tree.list ts]) Ended := by
  have hblank : Blank [if ts = [] then ⟨.whitespace, "  "⟩ else space] := by
    split <;> simp [Blank, space, isTrivia, Kind.isTrivia]
  have hclose := (rebuilds_expect hblank (t := rightBracket) rfl).single
  have hitems := (rebuilds_items h).cons hclose fun rest _ => by
    rw [Rose.leavesOf_append, leavesOf_map_leaf, List.append_assoc, hblank.aheadIn_append]
    rfl
  have hseq := (rebuilds_token blank_nil (t := leftBracket) rfl).cons_any hitems
  have hatom := Rebuilds.atom (hseq.node blank_nil rfl rfl .list) blank_nil rfl rfl .list
  exact rebuilds_expr_atom hw rfl rfl hatom fun rest offset _ =>
    lambdaAhead_of_opening rfl rfl (by decide) (by decide) rest offset

end Grammar

end NixScope.Syntax
