import NixScope.Proofs.Precedence

namespace NixScope.Syntax

/-- A child of a node: a token or a node of some kind, or any expression. -/
inductive Part
  | token (kind : Kind)
  | node (kind : Kind)
  | expr
  deriving DecidableEq, Repr

namespace Part

def fits : Part → Tree → Bool
  | token k, .leaf t => t.kind == k
  | node k, .branch l _ => l == k
  | expr, .branch k _ => k.isExpr
  | _, _ => false

end Part

/-- One child, or any number of children, each of which is one of the parts. -/
inductive Slot
  | one (parts : List Part)
  | many (parts : List Part)
  deriving DecidableEq, Repr

namespace Slot

def token (kind : Kind) : Slot := .one [.token kind]

def node (kind : Kind) : Slot := .one [.node kind]

def expr : Slot := .one [.expr]

def entries : Slot := .many [.node .attrPathValue, .node .inherit]

def pieces (content : Kind) : Slot := .many [.token content, .node .interpolation]

end Slot

abbrev Form := List Slot

open Slot in
/-- What a node of the kind may consist of. Nodes around broken input have no form. -/
def Kind.forms : Kind → List Form
  | interpolation | dynamic => [[token dollarBrace, expr, token rightBrace]]
  | string =>
    [[token quote, pieces stringContent, token quote],
      [token indentedQuote, pieces stringContent, token indentedQuote]]
  | interpolatedPath => [[token pathFragment, pieces pathFragment]]
  | attr => [[token ident], [token orKw], [node string], [node dynamic]]
  | attrPath => [[node attr, many [.token dot, .node attr]]]
  | inheritedName => [[node attr]]
  | inheritFrom | paren => [[token leftParen, expr, token rightParen]]
  | inherit => [[token inheritKw, many [.node inheritFrom, .node inheritedName], token semicolon]]
  | attrPathValue => [[node attrPath, token assign, expr, token semicolon]]
  | attrSet => [[many [.token recKw], token leftBrace, entries, token rightBrace]]
  | list => [[token leftBracket, many [.expr], token rightBracket]]
  | var | paramName => [[token ident]]
  | literal =>
    [[one [.token integer, .token float, .token path, .token searchPath, .token uri]]]
  | patternEntry => [[node paramName], [node paramName, token question, expr]]
  | patternBind => [[node paramName, token atSign], [token atSign, node paramName]]
  | pattern =>
    [[many [.node patternBind], token leftBrace,
      many [.token ellipsis, .token comma, .node patternEntry], token rightBrace,
      many [.node patternBind]]]
  | lambda => [[node paramName, token colon, expr], [node pattern, token colon, expr]]
  | withIn => [[token withKw, expr, token semicolon, expr]]
  | assert => [[token assertKw, expr, token semicolon, expr]]
  | ifElse => [[token ifKw, expr, token thenKw, expr, token elseKw, expr]]
  | letIn => [[token letKw, entries, token inKw, expr]]
  | select =>
    [[expr, token dot, node attrPath], [expr, token dot, node attrPath, token orKw, expr]]
  | hasAttr => [[expr, token question, node attrPath]]
  | apply => [[expr, expr]]
  | binaryOp =>
    [[expr, one [.token implication, .token orOr, .token andAnd, .token equal, .token notEqual,
      .token less, .token lessEqual, .token more, .token moreEqual, .token update, .token plus,
      .token minus, .token star, .token slash, .token concat], expr]]
  | unaryOp => [[one [.token minus, .token bang], expr]]
  | root => [[], [expr]]
  | _ => []

namespace Form

inductive Fits : Form → List Tree → Prop
  | nil : Fits [] []
  | one {parts : List Part} {form : Form} {t : Tree} {ts : List Tree}
      (h : parts.any (·.fits t) = true) (hs : Fits form ts) : Fits (.one parts :: form) (t :: ts)
  | stop {parts : List Part} {form : Form} {ts : List Tree} (hs : Fits form ts) :
      Fits (.many parts :: form) ts
  | more {parts : List Part} {form : Form} {t : Tree} {ts : List Tree}
      (h : parts.any (·.fits t) = true) (hs : Fits (.many parts :: form) ts) :
      Fits (.many parts :: form) (t :: ts)

theorem Fits.append {f g : Form} {ts us : List Tree} (h : Fits f ts) (h' : Fits g us) :
    Fits (f ++ g) (ts ++ us) := by
  induction h with
  | nil => exact h'
  | one h hs ih => exact .one h ih
  | stop hs ih => exact .stop ih
  | more h hs ih => exact .more h ih

theorem Fits.expr {form : Form} {k : Kind} {us ts : List Tree} (hk : k.isExpr = true)
    (hs : Fits form ts) : Fits (.expr :: form) (.branch k us :: ts) :=
  .one (by simp [Part.fits, hk]) hs

theorem Fits.node {form : Form} {k : Kind} {us ts : List Tree} (hs : Fits form ts) :
    Fits (.node k :: form) (.branch k us :: ts) :=
  .one (by simp [Part.fits]) hs

theorem Fits.token {form : Form} {k : Kind} {o : Token} {ts : List Tree} (hk : o.kind = k)
    (hs : Fits form ts) : Fits (.token k :: form) (.leaf o :: ts) :=
  .one (by simp [Part.fits, hk]) hs

theorem fits_many {parts : List Part} {ts : List Tree} :
    Fits [.many parts] ts ↔ ∀ t ∈ ts, parts.any (·.fits t) = true := by
  constructor
  · intro h
    generalize hf : ([.many parts] : Form) = form at h
    induction h with
    | nil => cases hf
    | one h hs ih => cases hf
    | stop hs ih =>
      cases hf
      cases hs
      simp
    | more h hs ih =>
      cases hf
      simpa using ⟨by simpa using h, by simpa using ih rfl⟩
  · intro h
    induction ts with
    | nil => exact .stop .nil
    | cons t ts ih => exact .more (h t (by simp)) (ih fun u hu => h u (by simp [hu]))

theorem fits_many_append {parts : List Part} {ts us : List Tree} (h : Fits [.many parts] ts)
    (h' : Fits [.many parts] us) : Fits [.many parts] (ts ++ us) := by
  rw [fits_many] at h h' ⊢
  intro t ht
  obtain ht | ht := List.mem_append.mp ht
  · exact h t ht
  · exact h' t ht

end Form

def Tree.Formed (kind : Kind) (ts : List Tree) : Prop :=
  ∃ form ∈ kind.forms, Form.Fits form (solid ts)

namespace Rule

open Syntax.Tree (solid)

/-- If the rule meets no problem at the place, its trees have the form. -/
def FitsAt (r : Rule) (form : Form) (p : Place) : Prop :=
  (r p).2.errors = [] → form.Fits (solid (r p).1)

structure Builds (r : Rule) (form : Form) : Prop where
  reads : r.Reads
  fits : ∀ p, r.FitsAt form p

variable {r : Rule} {rs : List Rule} {slot : Slot} {form : Form} {p : Place}

theorem builds_nil : (seq []).Builds [] := ⟨reads_skip, fun _ _ => .nil⟩

theorem fitsAt_consAt (h : r.FitsAt [slot] p) (hr : (seq rs).Reads)
    (hs : (seq rs).FitsAt form (r p).2) : (seq (r :: rs)).FitsAt (slot :: form) p := by
  intro hq
  rw [seq_cons_apply] at hq ⊢
  rw [Tree.solid_append]
  exact (h (Place.Leads.clean (hr.moves _) hq)).append (hs hq)

/-- Only the first rule of a sequence has to look at the place. -/
theorem fitsAt_cons (h : r.FitsAt [slot] p) (hs : (seq rs).Builds form) :
    (seq (r :: rs)).FitsAt (slot :: form) p :=
  fitsAt_consAt h hs.reads (hs.fits _)

theorem builds_cons (h : r.Builds [slot]) (hs : (seq rs).Builds form) :
    (seq (r :: rs)).Builds (slot :: form) where
  reads p := (h.reads p).append (hs.reads _)
  fits p := fitsAt_cons (h.fits p) hs

theorem builds_append {rs' : List Rule} {form' : Form} (h : (seq rs).Builds form)
    (h' : (seq rs').Builds form') : (seq (rs ++ rs')).Builds (form ++ form') where
  reads p := by
    rw [seq_append_apply]
    exact (h.reads p).append (h'.reads _)
  fits p hq := by
    rw [seq_append_apply] at hq ⊢
    rw [Tree.solid_append]
    exact (h.fits p (Place.Leads.clean (h'.reads.moves _) hq)).append (h'.fits _ hq)

theorem fitsAt_token {k : Kind} (hp : p.peek = some k) : token.FitsAt [.token k] p := by
  intro _
  obtain ⟨t, ht, hkt⟩ := solid_token hp
  rw [ht]
  exact .token hkt .nil

theorem fitsAt_node (kind : Kind) : (node kind r).FitsAt [.node kind] p := by
  intro _
  rw [solid_node]
  exact .node .nil

theorem FitsAt.one {part : Part} {parts : List Part} (h : r.FitsAt [.one [part]] p)
    (hm : part ∈ parts) : r.FitsAt [.one parts] p := by
  intro hq
  have hf := h hq
  generalize solid (r p).1 = ts at hf
  cases hf with
  | one ht hs =>
    cases hs
    exact .one (List.any_eq_true.mpr ⟨part, hm, by simpa using ht⟩) .nil

theorem FitsAt.many {part : Part} {parts : List Part} (h : r.FitsAt [.one [part]] p)
    (hm : part ∈ parts) : r.FitsAt [.many parts] p := by
  intro hq
  have hf := h.one hm hq
  generalize solid (r p).1 = ts at hf
  cases hf with
  | one ht hs =>
    cases hs
    exact .more ht (.stop .nil)

theorem fitsAt_ifPeek {r : Rule} {kind : Kind} {problem : Problem}
    (h : p.peek = some kind → r.FitsAt form p) :
    FitsAt (fun p => if p.peek = some kind then r p else report problem p) form p := by
  intro hq
  dsimp only at hq ⊢
  by_cases hp : p.peek = some kind
  · rw [if_pos hp] at hq ⊢
    exact h hp hq
  · rw [if_neg hp] at hq
    exact absurd hq (p.report_not_clean problem)

theorem builds_expect (kind : Kind) : (expect kind).Builds [.token kind] :=
  ⟨reads_expect kind, fun _ => fitsAt_ifPeek fun hp => fitsAt_token hp⟩

theorem fitsAt_many_seq {parts : List Part} (h : r.FitsAt [.many parts] p)
    (hs : (seq rs).Builds [.many parts]) : (seq (r :: rs)).FitsAt [.many parts] p := by
  intro hq
  rw [seq_cons_apply] at hq ⊢
  rw [Tree.solid_append]
  exact Form.fits_many_append (h (Place.Leads.clean (hs.reads.moves _) hq)) (hs.fits _ hq)

theorem builds_many_nil (parts : List Part) : (seq []).Builds [.many parts] :=
  ⟨reads_skip, fun _ _ => .stop .nil⟩

theorem builds_when {parts : List Part} {kind : Kind} (hr : r.Reads)
    (h : ∀ p, p.peek = some kind → r.FitsAt [.many parts] p) :
    («when» kind r).Builds [.many parts] where
  reads := reads_when _ hr
  fits p := by
    intro hq
    by_cases hp : p.peek = some kind
    · rw [when_pos hp] at hq ⊢
      exact h p hp hq
    · rw [when_neg hp]
      exact .stop .nil

theorem builds_many {parts : List Part} {element : Place → Option Rule}
    (hr : ∀ p r, element p = some r → r.Reads)
    (h : ∀ p r, element p = some r → r.FitsAt [.many parts] p) :
    (many element).Builds [.many parts] := by
  refine ⟨reads_many hr, ?_⟩
  suffices hm : ∀ clock p, (manyFrom element clock).FitsAt [.many parts] p from fun p => hm p.rest p
  intro clock
  induction clock with
  | nil => exact fun p _ => .stop .nil
  | cons c clock ih =>
    intro p
    cases he : element p with
    | none => exact fun _ => by simpa [manyFrom, he] using .stop .nil
    | some r =>
      have hs : (seq [manyFrom element clock]).Builds [.many parts] := by
        refine ⟨reads_seq (by simp [reads_manyFrom hr]), fun q => ?_⟩
        exact fitsAt_many_seq (ih q) (builds_many_nil parts)
      have hq := fitsAt_many_seq (h p r he) hs
      simpa only [FitsAt, manyFrom, he, seq_cons_apply, seq_nil_apply, List.append_nil] using hq

end Rule

namespace Grammar

open Rule
open Syntax.Tree (solid)

theorem fits_of_branch {ts : List Tree} {k : Kind} {us : List Tree}
    (h : solid ts = [.branch k us]) (hk : k.isExpr = true) : Form.Fits [.expr] (solid ts) := by
  rw [h]
  exact .expr hk .nil

section

variable {inner : Phrase → Rule} (h : ∀ phrase, (inner phrase).Reads) (hn : Precise inner)

include h hn

theorem builds_expr : (inner .expr).Builds [.expr] := by
  refine ⟨h .expr, fun p hq => ?_⟩
  obtain ⟨k, us, hs, hk, -⟩ := hn.expr rfl hq
  exact fits_of_branch hs hk

theorem builds_operand (power : Nat) : (inner (.operand power)).Builds [.expr] := by
  refine ⟨h _, fun p hq => ?_⟩
  obtain ⟨k, us, hs, hk, -⟩ := hn.operand rfl hq
  exact fits_of_branch hs hk

theorem builds_exprThen {rs : List Rule} {form : Form} (hs : (seq rs).Builds form) :
    (seq (inner .expr :: rs)).Builds (.expr :: form) :=
  builds_cons (builds_expr h hn) hs

theorem builds_exprEnd : (seq [inner .expr]).Builds [.expr] := builds_exprThen h hn builds_nil

theorem builds_exprUntil (kind : Kind) :
    (seq [inner .expr, expect kind]).Builds [.expr, .token kind] :=
  builds_exprThen h hn (builds_cons (builds_expect kind) builds_nil)

omit hn in
theorem builds_stringParts :
    (many (stringPart inner)).Builds [.pieces .stringContent] := by
  refine builds_many (fun p r => reads_stringPart h) fun p r hr => ?_
  simp only [stringPart] at hr
  split at hr <;> cases hr
  · exact (fitsAt_token (by assumption)).many (by simp)
  · exact (fitsAt_node _).many (by simp)

omit hn in
theorem builds_pathParts : (many (pathPart inner)).Builds [.pieces .pathFragment] := by
  refine builds_many (fun p r => reads_pathPart h) fun p r hr => ?_
  simp only [pathPart] at hr
  split at hr <;> cases hr
  · exact (fitsAt_token (Place.peek_of_head (by assumption) rfl)).many (by simp)
  · exact (fitsAt_node _).many (by simp)

omit hn in
theorem builds_dotAttrs :
    (many fun p => if dotAttrAhead p then some (seq [token, attr inner]) else none).Builds
      [.many [.token .dot, .node .attr]] := by
  refine builds_many (fun p r => reads_dotAttr h) fun p r hr => ?_
  obtain ⟨hd, hr⟩ := Option.ite_none_right_eq_some.mp hr
  cases hr
  have ha : (seq [attr inner]).Builds [.many [.token .dot, .node .attr]] := by
    refine ⟨reads_seq (by simp [reads_attr h]), fun p => ?_⟩
    exact fitsAt_many_seq ((fitsAt_node _).many (by simp)) (builds_many_nil _)
  exact fitsAt_many_seq ((fitsAt_token (peek_of_dotAttrAhead hd)).many (by simp)) ha

omit hn in
theorem builds_inheritedNames :
    (many (inheritedName inner)).Builds [.many [.node .inheritFrom, .node .inheritedName]] := by
  refine builds_many (fun p r => reads_inheritedName h) fun p r hr => ?_
  obtain ⟨-, hr⟩ := Option.ite_none_right_eq_some.mp hr
  cases hr
  exact (fitsAt_node _).many (by simp)

omit hn in
theorem builds_inheritParts : (seq [«when» .leftParen
      (node .inheritFrom (seq [token, inner .expr, expect .rightParen])),
      many (inheritedName inner)]).Builds [.many [.node .inheritFrom, .node .inheritedName]] := by
  have hs : (seq [many (inheritedName inner)]).Builds
      [.many [.node .inheritFrom, .node .inheritedName]] := by
    have hb := builds_inheritedNames h
    refine ⟨reads_seq (by simp [hb.reads]), fun p => ?_⟩
    exact fitsAt_many_seq (hb.fits p) (builds_many_nil _)
  have hf : («when» .leftParen
      (node .inheritFrom (seq [token, inner .expr, expect .rightParen]))).Builds
      [.many [.node .inheritFrom, .node .inheritedName]] :=
    builds_when (reads_node (by simp) (reads_seq (by simp [h]))) fun p _ =>
      (fitsAt_node _).many (by simp)
  exact ⟨fun p => (hf.reads p).append (hs.reads _), fun p => fitsAt_many_seq (hf.fits p) hs⟩

omit hn in
theorem builds_bindings (terminator : Kind) :
    (many (binding inner terminator)).Builds [.entries] := by
  refine builds_many (fun p r => reads_binding h) fun p r hr => ?_
  obtain ⟨kind, -, hr⟩ := Option.bind_eq_some_iff.mp hr
  split at hr
  · cases hr
  split at hr
  · cases hr
    exact (fitsAt_node _).many (by simp)
  split at hr
  · cases hr
    exact (fitsAt_node _).many (by simp)
  split at hr
  · cases hr
  · cases hr
    intro hq
    have hl : (seq [node .error token]).Reads := reads_seq (by simp [reads_node])
    exact absurd (Place.Leads.clean (hl.moves _) hq) (p.report_not_clean _)

omit hn in
theorem builds_formals :
    (formals inner).Builds [.many [.token .ellipsis, .token .comma, .node .patternEntry]] := by
  refine ⟨reads_formals h, ?_⟩
  suffices hm : ∀ clock p, (formalsFrom inner clock).FitsAt
      [.many [.token .ellipsis, .token .comma, .node .patternEntry]] p from fun p => hm p.rest p
  intro clock
  induction clock with
  | nil => exact fun p _ => .stop .nil
  | cons c clock ih =>
    have hnext : (seq [formalsFrom inner clock]).Builds
        [.many [.token .ellipsis, .token .comma, .node .patternEntry]] := by
      refine ⟨reads_seq (by simp [reads_formalsFrom h]), fun p => ?_⟩
      exact fitsAt_many_seq (ih p) (builds_many_nil _)
    have hcomma : («when» .comma (seq [token, formalsFrom inner clock])).Builds
        [.many [.token .ellipsis, .token .comma, .node .patternEntry]] :=
      builds_when (reads_seq (by simp [reads_formalsFrom h])) fun p hp =>
        fitsAt_many_seq ((fitsAt_token hp).many (by simp)) hnext
    have htail : (seq [«when» .comma (seq [token, formalsFrom inner clock])]).Builds
        [.many [.token .ellipsis, .token .comma, .node .patternEntry]] :=
      ⟨reads_seq (by simp [hcomma.reads]),
        fun p => fitsAt_many_seq (hcomma.fits p) (builds_many_nil _)⟩
    intro p hq
    rw [formalsFrom] at hq ⊢
    dsimp only at hq ⊢
    split at hq <;> rename_i hp
    · exact .stop .nil
    · exact .stop .nil
    · refine fitsAt_many_seq ?_ htail hq
      simp only [formal]
      split
      · exact (fitsAt_token hp).many (by simp)
      · exact (fitsAt_node _).many (by simp)
      · exact fun hq => absurd hq (recover_not_clean .noFormal p)

omit h hn in
theorem builds_paramName : paramName.Builds [.node .paramName] :=
  ⟨reads_paramName, fun _ => fitsAt_node _⟩

omit hn in
theorem builds_pattern : (seq [«when» .ident (node .patternBind (seq [paramName, expect .atSign])),
      expect .leftBrace, formals inner, expect .rightBrace, «when» .atSign patternName]).Builds
    [.many [.node .patternBind], .token .leftBrace,
      .many [.token .ellipsis, .token .comma, .node .patternEntry], .token .rightBrace,
      .many [.node .patternBind]] := by
  have hbefore : («when» .ident (node .patternBind (seq [paramName, expect .atSign]))).Builds
      [.many [.node .patternBind]] :=
    builds_when (reads_node (by simp) (reads_seq (by simp))) fun p _ => (fitsAt_node _).many (by simp)
  have hafter : («when» .atSign patternName).Builds [.many [.node .patternBind]] :=
    builds_when reads_patternName fun p _ => (fitsAt_node _).many (by simp)
  have hend := builds_cons (builds_expect .rightBrace) (builds_cons hafter builds_nil)
  exact builds_cons hbefore
    (builds_cons (builds_expect .leftBrace) (builds_cons (builds_formals h) hend))

omit hn in
theorem builds_attrSet : (seq [«when» .recKw token, expect .leftBrace,
      many (binding inner .rightBrace), expect .rightBrace]).Builds
    [.many [.token .recKw], .token .leftBrace, .entries, .token .rightBrace] := by
  have hrec : («when» .recKw token).Builds [.many [.token .recKw]] :=
    builds_when reads_token fun p hp => (fitsAt_token hp).many (by simp)
  exact builds_cons hrec (builds_cons (builds_expect .leftBrace)
    (builds_cons (builds_bindings h .rightBrace)
      (builds_cons (builds_expect .rightBrace) builds_nil)))

theorem builds_listElements :
    (many (listElement inner)).Builds [.many [.expr]] := by
  refine builds_many (fun p r => reads_listElement h) fun p r hr => ?_
  obtain ⟨kind, -, hr⟩ := Option.bind_eq_some_iff.mp hr
  split at hr
  · cases hr
    intro hq
    have hc := Place.consistent_of_clean (Place.Leads.clean ((reads_select h).moves p) hq)
    obtain ⟨ts, q, he, hsel⟩ := selection_select h hc
    rw [he] at hq ⊢
    obtain ⟨k, us, hu, hk, -⟩ := hsel.simple hn hq
    have hx := Kind.isExpr_of_isSimple hk
    simp only [Tree.solid_append, solid_trivia, List.nil_append, hu]
    exact .more (by simp [Part.fits, hx]) (.stop .nil)
  split at hr
  · cases hr
  · cases hr
    exact fun hq => absurd hq (recover_not_clean .noListElement p)

theorem Body.formed {kind : Kind} {p : Place} {r : Rule} (hb : Body inner kind p r)
    (hq : (r p).2.errors = []) : Tree.Formed kind (r p).1 := by
  cases hb with
  | hole hk hp =>
    have hf := fitsAt_cons (fitsAt_token hp) (builds_exprUntil h hn .rightBrace)
    obtain rfl | rfl := hk
    · exact ⟨_, .head _, hf hq⟩
    · exact ⟨_, .head _, hf hq⟩
  | @string opening _ ho hp =>
    have hend : Rule.Builds
        (fun p => if p.peek = some opening then token p else report .unterminatedString p)
        [.token opening] :=
      ⟨reads_ifPeek reads_token (by simp), fun _ => fitsAt_ifPeek fun hp => fitsAt_token hp⟩
    have hf := fitsAt_cons (fitsAt_token hp)
      (builds_cons (builds_stringParts h) (builds_cons hend builds_nil))
    obtain rfl | rfl := ho
    · exact ⟨_, .head _, hf hq⟩
    · exact ⟨_, .tail _ (.head _), hf hq⟩
  | interpolatedPath hp =>
    have hs := builds_cons (builds_pathParts h) builds_nil
    exact ⟨_, .head _, fitsAt_cons (fitsAt_token hp) hs hq⟩
  | attrName hp =>
    obtain hp | hp := hp
    · exact ⟨_, .head _, fitsAt_token hp hq⟩
    · exact ⟨_, .tail _ (.head _), fitsAt_token hp hq⟩
  | attrString hp => exact ⟨_, .tail _ (.tail _ (.head _)), fitsAt_node _ hq⟩
  | attrDynamic hp => exact ⟨_, .tail _ (.tail _ (.tail _ (.head _))), fitsAt_node _ hq⟩
  | noAttr hp =>
    exact absurd hq (p.report_not_clean _)
  | attrPath =>
    have hs := builds_cons (builds_dotAttrs h) builds_nil
    exact ⟨_, .head _, fitsAt_cons (fitsAt_node _) hs hq⟩
  | inheritedName hp => exact ⟨_, .head _, fitsAt_node _ hq⟩
  | inheritFrom hp =>
    exact ⟨_, .head _, fitsAt_cons (fitsAt_token hp) (builds_exprUntil h hn .rightParen) hq⟩
  | inherit hp =>
    have hs := builds_append (builds_inheritParts h)
      (builds_cons (builds_expect .semicolon) builds_nil)
    exact ⟨_, .head _, fitsAt_cons (fitsAt_token hp) hs hq⟩
  | attrPathValue hp =>
    have hs := builds_cons (builds_expect .assign) (builds_exprUntil h hn .semicolon)
    exact ⟨_, .head _, fitsAt_cons (fitsAt_node _) hs hq⟩
  | attrSet hp => exact ⟨_, .head _, (builds_attrSet h).fits p hq⟩
  | error hp he => exact absurd (Place.Leads.clean (reads_token.moves p) hq) he
  | remaining he => exact absurd (Place.Leads.clean (reads_remaining.moves p) hq) he
  | list hp =>
    have hs := builds_cons (builds_listElements h hn)
      (builds_cons (builds_expect .rightBracket) builds_nil)
    exact ⟨_, .head _, fitsAt_cons (fitsAt_token hp) hs hq⟩
  | paramName hp => exact ⟨_, .head _, fitsAt_token hp hq⟩
  | patternEntry hp =>
    have hd := builds_exprEnd h hn
    have hr : (seq [«when» .question (seq [token, inner .expr])]).Reads :=
      reads_seq (by simp [reads_when, reads_seq, h])
    by_cases hk : (Grammar.paramName p).2.peek = some .question
    · refine ⟨_, .tail _ (.head _), fitsAt_consAt (fitsAt_node _) hr ?_ hq⟩
      have hf := fitsAt_cons (fitsAt_token hk) hd
      simpa only [FitsAt, seq_cons_apply, seq_nil_apply, when_pos hk, List.append_nil] using hf
    · refine ⟨_, .head _, fitsAt_consAt (fitsAt_node _) hr ?_ hq⟩
      intro _
      simpa only [seq_cons_apply, seq_nil_apply, when_neg hk] using .nil
  | bindBefore hp =>
    have hs := builds_cons (builds_expect .atSign) builds_nil
    exact ⟨_, .head _, fitsAt_cons (builds_paramName.fits p) hs hq⟩
  | bindAfter hp =>
    have hname : Rule.Builds
        (fun p => if p.peek = some .ident then Grammar.paramName p else report .noBindName p)
        [.node .paramName] :=
      ⟨reads_ifPeek reads_paramName (by simp),
        fun p => fitsAt_ifPeek fun _ => builds_paramName.fits p⟩
    have hs := builds_cons hname builds_nil
    exact ⟨_, .tail _ (.head _), fitsAt_cons (fitsAt_token hp) hs hq⟩
  | pattern hp => exact ⟨_, .head _, (builds_pattern h).fits p hq⟩
  | patternLambda hp =>
    have hs := builds_cons (builds_expect .colon) (builds_exprEnd h hn)
    exact ⟨_, .tail _ (.head _), fitsAt_cons (fitsAt_node _) hs hq⟩
  | nameLambda hp hc =>
    have hcolon : (Grammar.paramName p).2.peek = some .colon := by
      have ht := ahead_token (p := p.skipTrivia) (by simpa using hp) 0
      rw [Place.ahead_skipTrivia, hc] at ht
      simp only [Grammar.paramName, node, trivia_eq]
      exact ht
    have hr : (seq [token, inner .expr]).Reads := reads_seq (by simp [h])
    have hs := fitsAt_cons (fitsAt_token hcolon) (builds_exprEnd h hn)
    exact ⟨_, .head _, fitsAt_consAt (fitsAt_node _) hr hs hq⟩
  | withIn hp =>
    have hs := builds_exprThen h hn (builds_cons (builds_expect .semicolon) (builds_exprEnd h hn))
    exact ⟨_, .head _, fitsAt_cons (fitsAt_token hp) hs hq⟩
  | assert hp =>
    have hs := builds_exprThen h hn (builds_cons (builds_expect .semicolon) (builds_exprEnd h hn))
    exact ⟨_, .head _, fitsAt_cons (fitsAt_token hp) hs hq⟩
  | ifElse hp =>
    have helse := builds_cons (builds_expect .elseKw) (builds_exprEnd h hn)
    have hthen := builds_cons (builds_expect .thenKw) (builds_exprThen h hn helse)
    exact ⟨_, .head _, fitsAt_cons (fitsAt_token hp) (builds_exprThen h hn hthen) hq⟩
  | letIn hp =>
    have hs := builds_cons (builds_bindings h .inKw)
      (builds_cons (builds_expect .inKw) (builds_exprEnd h hn))
    exact ⟨_, .head _, fitsAt_cons (fitsAt_token hp) hs hq⟩
  | var hp => exact ⟨_, .head _, fitsAt_token hp hq⟩
  | literal hk hp =>
    refine ⟨_, .head _, (fitsAt_token hp).one ?_ hq⟩
    simpa using hk
  | paren hp =>
    exact ⟨_, .head _, fitsAt_cons (fitsAt_token hp) (builds_exprUntil h hn .rightParen) hq⟩
  | @unaryOp _ r hp =>
    obtain ⟨k, hp, hk⟩ := Option.bind_eq_some_iff.mp hp
    have hm : Part.token k ∈ [Part.token .minus, .token .bang] := by
      cases k <;> simp_all [Kind.unaryPower]
    have hs := builds_cons (builds_operand h hn r) builds_nil
    exact ⟨_, .head _, fitsAt_cons ((fitsAt_token hp).one hm) hs hq⟩

end

theorem formed_of_ordered {kind : Kind} {ts : List Tree} (h : Tree.Ordered kind ts)
    (hk : kind ∈ [.binaryOp, .apply, .select]) : Tree.Formed kind ts := by
  cases h with
  | @binaryOp _ l r o lp rp hs ho hl hr =>
    refine ⟨_, .head _, ?_⟩
    have hx := hs.left
    have hx' := hs.right
    rw [hs.solid]
    cases l with
    | leaf t => cases hx
    | branch a as =>
      cases r with
      | leaf t => cases hx'
      | branch b bs =>
        refine .expr hx (.one ?_ (.expr hx' .nil))
        obtain ⟨k, text⟩ := o
        cases k <;> first | rfl | cases ho
  | apply hs hf ha =>
    refine ⟨_, .head _, ?_⟩
    rw [hs]
    exact .expr (Kind.not_mem_of_function hf).1 (.expr (Kind.isExpr_of_isSimple ha) .nil)
  | select hs ho hb =>
    refine ⟨_, .head _, ?_⟩
    rw [hs]
    exact .expr (Kind.isExpr_of_isSimple hb) (.token ho (.node .nil))
  | selectOr hs ho ho' hb hd =>
    refine ⟨_, .tail _ (.head _), ?_⟩
    rw [hs]
    exact .expr (Kind.isExpr_of_isSimple hb)
      (.token ho (.node (.token ho' (.expr (Kind.isExpr_of_isSimple hd) .nil))))
  | unaryOp hs hb hr => simp at hk
  | hasAttr hs hl => simp at hk
  | other hn => simp_all

/-- Every production of a clean run gives its node a form of its kind. -/
theorem Production.formed {levels : Nat} {kind : Kind} {p q : Place} {ts : List Tree}
    (hp : Production (nested levels) kind p ts q) (hq : q.errors = []) : Tree.Formed kind ts := by
  have hn := precise_nested levels
  have h := reads_nested levels
  have ho := hp.ordered hq
  cases hp with
  | body hb hr =>
    have hf := hb.formed h hn
    rw [hr] at hf
    exact hf hq
  | @giveUp p q ts hp hr =>
    have hl := (Place.leads_skipTrivia _).trans (reads_remaining.leads hr)
    exact absurd (hl.clean hq) (p.report_not_clean _)
  | select ha hd hs => exact formed_of_ordered ho (by decide)
  | selectOr ha hd hs => exact formed_of_ordered ho (by decide)
  | apply hf ha hs => exact formed_of_ordered ho (by decide)
  | hasAttr hl hk hs =>
    have hlead := (reads_dotPath h).leads hs
    obtain ⟨a, as, ha, hx, -, -⟩ := hl.precise hn h (hlead.clean hq)
    obtain ⟨o, vs, hv, hko⟩ := solid_dotPath hk hs
    refine ⟨_, .head _, ?_⟩
    rw [Tree.solid_append, ha, hv]
    exact .expr hx (.token hko (.node .nil))
  | binaryOp hl hk hb hr hs => exact formed_of_ordered ho (by decide)

end Grammar

namespace Grammar

open Rule
open Syntax.Tree (solid)

theorem file_formed (p : Place) (hq : (file p).2.errors = []) : Tree.Formed .root (file p).1 := by
  have hr : (node .error remaining).Reads := reads_node (by simp) reads_remaining
  simp only [file, seq_cons_apply, seq_nil_apply, List.append_nil] at hq ⊢
  generalize hfirst : onlyIf (fun p => p.peek.isSome) (nested maxDepth .expr) p = first at hq ⊢
  have hend : first.2.peek.isSome = false := by
    rw [← Bool.not_eq_true]
    intro hs
    rw [onlyIf, if_pos hs] at hq
    have hc := Place.Leads.clean (reads_trivia.moves _) hq
    exact absurd (Place.Leads.clean (hr.moves _) hc) (first.2.report_not_clean _)
  rw [onlyIf, if_neg (by simpa using hend)] at hq ⊢
  have hq : first.2.errors = [] := Place.Leads.clean (reads_trivia.moves _) hq
  rw [onlyIf] at hfirst
  split at hfirst
  · obtain ⟨k, us, hu, hk, -⟩ := (precise_nested maxDepth).expr hfirst hq
    refine ⟨_, .tail _ (.head _), ?_⟩
    simpa using fits_of_branch hu hk
  · refine ⟨_, .head _, ?_⟩
    subst hfirst
    simpa using .nil

end Grammar

/-- Every node of a text without problems has a form of its kind. -/
theorem Parse.everywhere_formed (tokens : List Token) (h : (ofTokens tokens).errors = []) :
    (ofTokens tokens).root.tree.Everywhere Tree.Formed := by
  have hclean : (Grammar.file (.start tokens)).2.errors = [] := List.reverse_eq_nil_iff.mp h
  refine everywhere_root tokens (Grammar.file_formed _ hclean) ?_
  rintro k ts ⟨levels, p, q, -, hp, hq⟩
  exact hp.formed (hq.clean hclean)

end NixScope.Syntax
