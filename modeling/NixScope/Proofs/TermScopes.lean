import NixScope.Proofs.PhraseScopes
import NixScope.Proofs.Terms

namespace NixScope

open Syntax Node

namespace Term

def path (head : Identifier) (names : List Identifier) : AttributePath :=
  .ofNames head.text (names.map (·.text))

def pointer (kind : Kind) (start : Nat) (text : String) : Pointer :=
  ⟨kind, start, start + text.utf8ByteSize⟩

def behind (start : Nat) (text : String) : Nat := start + text.utf8ByteSize

mutual

/-- The usages in a term whose text starts at the given offset, from left to right, each with what
its first name means. -/
def usages (c : Context) (start : Nat) : Term → List (AttributePath × List Symbol)
  | chain head names => [(path head names, c.resolve head.text)]
  | one => []
  | text => []
  | letIn name value body =>
    let inner := c.bind (pointer .letIn start (letIn name value body).render) [name.text]
    value.usages inner (behind start ("let " ++ name.text ++ " = ")) ++
      body.usages inner (behind start ("let " ++ name.text ++ " = " ++ value.render ++ "; in "))
  | lambda name body =>
    let inner := c.bind (pointer .lambda (behind start "(") (name.text ++ ": " ++ body.render))
      [name.text]
    body.usages inner (behind start ("(" ++ name.text ++ ": "))
  | patternLambda first second body =>
    let parameters := "\x7b " ++ first.text ++ ", " ++ second.text ++ " ? 1, ... \x7d: "
    let inner := c.bind (pointer .lambda (behind start "(") (parameters ++ body.render))
      [first.text, second.text]
    body.usages inner (behind start ("(" ++ parameters))
  | withIn source body =>
    source.usages c (behind start "with (") ++
      body.usages c.enterWith (behind start ("with (" ++ source.render ++ "); "))
  | recSet name value other =>
    let inner := c.bind (pointer .attrSet start (recSet name value other).render)
      [name.text, other.text]
    value.usages inner (behind start ("rec \x7b " ++ name.text ++ " = ")) ++
      [(path other [], c.resolve other.text)]
  | apply function argument =>
    function.usages c (behind start "(") ++
      argument.usages c (behind start ("(" ++ function.render ++ ") ("))
  | fallback head first names default =>
    (path head (first :: names), c.resolve head.text) ::
      default.usages c (behind start ("(" ++ dotted (head :: first :: names) ++ " or ("))
  | list items => usagesAll c (behind start "[ ") items

def usagesAll (c : Context) (start : Nat) : List Term → List (AttributePath × List Symbol)
  | [] => []
  | item :: items =>
    item.usages c (behind start "(") ++
      usagesAll c (behind start ("(" ++ item.render ++ ") ")) items

end

def answer (u : Usage) : AttributePath × List Symbol :=
  (u.path, Scope.resolveName u.element u.path.first)

theorem exists_branch (t : Term) : ∃ kind ts, t.tree = .branch kind ts ∧ kind.isExpr = true := by
  cases t with
  | chain head names => cases names <;> exact ⟨_, _, rfl, rfl⟩
  | _ => exact ⟨_, _, rfl, rfl⟩

theorem behind_append (start : Nat) (s t : String) :
    behind start (s ++ t) = behind (behind start s) t := by
  rw [behind, behind, behind, String.utf8ByteSize_append, Nat.add_assoc]

theorem width_attrPath (name : Identifier) :
    Tree.width (.branch .attrPath [Attribute.tree name.text]) = name.text.utf8ByteSize := by
  rw [Tree.width, Rose.leaves, Rose.leavesOf, leaves_attribute]
  rfl

theorem width_pattern (first second : Identifier) :
    (Tree.pattern (Token.word first.text) (Token.word second.text) oneTree).width =
      ("\x7b " ++ first.text ++ ", " ++ second.text ++ " ? 1, ... \x7d").utf8ByteSize := by
  refine width_of_chars ?_
  simp only [String.toList_append, List.append_assoc]
  rfl

theorem pointer_ofTree (above : List Spot) (start index : Nat) {kind : Kind} {ts : List Tree}
    {text : String} (h : Tree.width (.branch kind ts) = text.utf8ByteSize) :
    (ofTree above start index (.branch kind ts)).pointer = pointer kind start text := by
  rw [pointer, ← h, Tree.width_branch]
  exact pointer_laid ..

section

variable {c : Context} {above : List Spot} {start index : Nat}

theorem fits_part {t : Tree} (h : c.Fits (ofTree above start index t))
    (hs : Environment.isScope (ofTree above start index t) = false)
    (hk : ((ofTree above start index t).kind == .withIn) = false)
    (s i : Nat) (u : Tree) : c.Fits (ofTree (aboveParts above start index t) s i u) :=
  h.inner rfl hs (Context.isBodyOf_of_kind (by simpa using hk) _)

theorem fits_letIn {name : Identifier} {value body : Term}
    (h : c.Fits (ofTree above start index
      (Tree.letIn (Attribute.tree name.text) value.tree body.tree))) (s i : Nat) (u : Tree) :
    (c.bind (pointer .letIn start (letIn name value body).render) [name.text]).Fits
      (ofTree (aboveParts above start index
        (Tree.letIn (Attribute.tree name.text) value.tree body.tree)) s i u) := by
  have hp := pointer_ofTree above start index (width_tree (letIn name value body))
  obtain ⟨kind, ts, hb, hk⟩ := body.exists_branch
  have hn := Host.named_letIn_laid above start index name.text value.tree hk ts
  rw [← hb] at hn
  rw [← hp]
  exact h.bind rfl rfl nofun hn

theorem fits_nameLambda (name : Identifier) (body : Term)
    (h : c.Fits (ofTree above start index (Tree.nameLambda (Token.word name.text) body.tree)))
    (s i : Nat) (u : Tree) :
    (c.bind (pointer .lambda start (name.text ++ ": " ++ body.render)) [name.text]).Fits
      (ofTree (aboveParts above start index
        (Tree.nameLambda (Token.word name.text) body.tree)) s i u) := by
  have hp := pointer_ofTree above start index
    (width_of_chars (chars_nameLambda (chars_tree body) name))
  rw [← hp]
  exact h.bind rfl rfl nofun (Host.named_nameLambda_laid above start index name.isFree body.tree)

theorem fits_patternLambda (first second : Identifier) (body : Term)
    (h : c.Fits (ofTree above start index (Tree.patternLambda (Token.word first.text)
      (Token.word second.text) oneTree body.tree))) (s i : Nat) (u : Tree) :
    (c.bind (pointer .lambda start ("\x7b " ++ first.text ++ ", " ++ second.text ++
      " ? 1, ... \x7d: " ++ body.render)) [first.text, second.text]).Fits
        (ofTree (aboveParts above start index (Tree.patternLambda (Token.word first.text)
          (Token.word second.text) oneTree body.tree)) s i u) := by
  have hp := pointer_ofTree above start index
    (width_of_chars (chars_patternLambda (chars_tree body) first second))
  rw [← hp]
  exact h.bind rfl rfl nofun
    (Host.named_patternLambda_laid above start index first.isFree second.isFree oneTree body.tree)

theorem fits_recSet {name other : Identifier} {value : Term}
    (h : c.Fits (ofTree above start index
      (Tree.recSet (Attribute.tree name.text) value.tree (Attribute.tree other.text))))
    (s i : Nat) (u : Tree) :
    (c.bind (pointer .attrSet start (recSet name value other).render) [name.text, other.text]).Fits
      (ofTree (aboveParts above start index
        (Tree.recSet (Attribute.tree name.text) value.tree (Attribute.tree other.text))) s i u) := by
  have hp := pointer_ofTree above start index (width_tree (recSet name value other))
  rw [← hp]
  exact h.bind rfl rfl nofun
    (Host.named_recSet_laid above start index name.text other.text value.tree)

theorem fits_withIn {source body : Term}
    (h : c.Fits (ofTree above start index (Tree.withIn source.tree body.tree))) :
    c.Fits (ofTree (aboveParts above start index (Tree.withIn source.tree body.tree)) (start + 5) 2
      (Tree.paren source.tree)) ∧
    c.enterWith.Fits (ofTree (aboveParts above start index (Tree.withIn source.tree body.tree))
      (start + 5 + (Tree.paren source.tree).width + 2) 5 body.tree) := by
  obtain ⟨kind, ts, ht, hk⟩ := body.exists_branch
  have hbody := WithIn.body?_laid above start index source.tree hk ts
  rw [← ht] at hbody
  have hsource : Scope.isBodyOf
      (ofTree (aboveParts above start index (Tree.withIn source.tree body.tree)) (start + 5) 2
        (Tree.paren source.tree))
      (ofTree above start index (Tree.withIn source.tree body.tree)) = false := by
    rw [Scope.isBodyOf, hbody, Option.any_some, Spot.same_eq_false, Bool.and_false]
    intro hp
    have hs : start + 5 + (Tree.paren source.tree).width + 2 = start + 5 :=
      congrArg (·.range.start) hp
    omega
  exact ⟨h.inner rfl rfl hsource, h.enterWith rfl rfl hbody⟩

end

/-- Wherever the term stands, its usages are those of the term, and they mean there what they mean
in the context. -/
def Meant (t : Term) : Prop :=
  ∀ (c : Context) (above : List Spot) (start index : Nat),
    Usage.isSelectBase (ofTree above start index t.tree) = false →
    c.Fits (ofTree above start index t.tree) →
    (Usage.within above start index t.tree).map answer = t.usages c start

theorem meant_one : one.Meant := fun _ _ _ _ _ _ => rfl

theorem meant_text : text.Meant := by
  intro c above start index _ _
  have hu : Usage.within above start index text.tree = [] := by
    refine (Usage.under_of_not_isUsage rfl).trans ?_
    rw [nodes_of_leaves]
    rfl
  rw [hu]
  rfl

theorem meant_chain (head : Identifier) (names : List Identifier) : (chain head names).Meant := by
  intro c above start index hs h
  cases names with
  | nil =>
    have hu := Usage.under_var rfl hs
      (AttributePath.name?_laid above start index head.text head.isFree) rfl
    refine (congrArg (List.map answer) hu).trans ?_
    exact congrArg (fun s => [(path head [], s)]) (h.resolveName nofun)
  | cons first names =>
    obtain ⟨u, he, hp, hu⟩ := AttributePath.under_selection above start index head.text first.text
      (names.map (·.text)) [] head.isFree
    refine (congrArg (List.map answer) hu).trans ?_
    rw [List.map_cons, answer, he, hp]
    exact congrArg (fun s => [(path head (first :: names), s)]) (h.resolveName nofun)

section

variable {c : Context} {above : List Spot} {start index : Nat} {t : Term} (ht : t.Meant)

include ht

theorem Meant.paren (h : c.Fits (ofTree above start index (Tree.paren t.tree))) :
    (Usage.within above start index (Tree.paren t.tree)).map answer = t.usages c (start + 1) := by
  rw [Usage.within_paren]
  exact ht _ _ _ _ rfl (fits_part h rfl rfl _ _ _)

theorem Meant.definition {name : Identifier}
    (h : c.Fits (ofTree above start index (Tree.definition (Attribute.tree name.text) t.tree))) :
    (Usage.within above start index (Tree.definition (Attribute.tree name.text) t.tree)).map answer =
      t.usages c (behind start (name.text ++ " = ")) := by
  rw [Usage.within_definition, width_attrPath, behind_append]
  exact ht _ _ _ _ rfl (fits_part h rfl rfl _ _ _)

end

theorem meant_letIn {name : Identifier} {value body : Term} (hv : value.Meant) (hb : body.Meant) :
    (letIn name value body).Meant := by
  intro c above start index _ h
  rw [tree] at h ⊢
  have hi := fits_letIn h
  have hstart : start + 4 + (Tree.definition (Attribute.tree name.text) value.tree).width + 4 =
      behind start ("let " ++ name.text ++ " = " ++ value.render ++ "; in ") := by
    rw [Tree.width_definition, width_attrPath, width_tree]
    simp only [behind_append, ← Nat.add_assoc]
    rfl
  rw [Usage.within_letIn, List.map_append, hv.definition (hi ..), hb _ _ _ _ rfl (hi ..),
    hstart, usages]
  simp only [behind_append]
  rfl

theorem meant_lambda {name : Identifier} {body : Term} (hb : body.Meant) :
    (lambda name body).Meant := by
  intro c above start index _ h
  rw [tree] at h ⊢
  have hi := fits_nameLambda name body (fits_part h rfl rfl (start + 1) 1 _)
  rw [Usage.within_paren, Usage.within_nameLambda, hb _ _ _ _ rfl (hi ..), usages]
  simp only [behind_append]
  rfl

theorem meant_patternLambda {first second : Identifier} {body : Term} (hb : body.Meant) :
    (patternLambda first second body).Meant := by
  intro c above start index _ h
  rw [tree] at h ⊢
  have hi := fits_patternLambda first second body (fits_part h rfl rfl (start + 1) 1 _)
  have hstart : start + 1 +
      (Tree.pattern (Token.word first.text) (Token.word second.text) oneTree).width + 2 =
      behind start ("(" ++
        ("\x7b " ++ first.text ++ ", " ++ second.text ++ " ? 1, ... \x7d: ")) := by
    rw [width_pattern]
    simp only [String.utf8ByteSize_append, behind_append, ← Nat.add_assoc]
    rfl
  rw [Usage.within_paren, Usage.within_patternLambda _ _ _ fun _ _ _ => rfl, hb _ _ _ _ rfl (hi ..),
    hstart, usages]
  rfl

theorem meant_withIn {source body : Term} (hs : source.Meant) (hb : body.Meant) :
    (withIn source body).Meant := by
  intro c above start index _ h
  rw [tree] at h ⊢
  obtain ⟨hsource, hbody⟩ := fits_withIn h
  have hstart : start + 5 + (Tree.paren source.tree).width + 2 =
      behind start ("with (" ++ source.render ++ "); ") := by
    rw [Tree.width_paren, width_tree]
    simp only [behind_append, ← Nat.add_assoc]
    rfl
  rw [Usage.within_withIn, List.map_append, hs.paren hsource,
    hb _ _ _ _ rfl hbody, usages, hstart]
  rfl

theorem meant_recSet {name other : Identifier} {value : Term} (hv : value.Meant) :
    (recSet name value other).Meant := by
  intro c above start index _ h
  rw [tree] at h ⊢
  obtain ⟨u, hu, he, hp⟩ := Usage.within_inheritance
    (aboveParts above start index
      (Tree.recSet (Attribute.tree name.text) value.tree (Attribute.tree other.text)))
    (start + 6 + (Tree.definition (Attribute.tree name.text) value.tree).width + 1) 6 other.text
  have hr : answer u = (path other [], c.resolve other.text) := by
    rw [answer, hp, he]
    exact congrArg (path other [], ·) (h.inherited rfl rfl rfl rfl fun hk => by cases hk)
  rw [Usage.within_recSet, List.map_append, hv.definition (fits_recSet h ..), hu,
    List.map_singleton, hr, usages]
  simp only [behind_append]
  rfl

theorem meant_apply {function argument : Term} (hf : function.Meant) (ha : argument.Meant) :
    (apply function argument).Meant := by
  intro c above start index _ h
  rw [tree] at h ⊢
  have hi := fits_part h rfl rfl
  rw [Usage.within_apply, List.map_append, hf.paren (hi ..), ha.paren (hi ..), usages,
    Tree.width_paren, width_tree]
  simp only [behind_append, ← Nat.add_assoc]
  rfl

theorem meant_fallback {head first : Identifier} {names : List Identifier} {default : Term}
    (hd : default.Meant) : (fallback head first names default).Meant := by
  intro c above start index _ h
  rw [tree] at h ⊢
  have hs := fits_part h rfl rfl (start + 1) 1 (.branch .select (AttributePath.selection head.text
    first.text (names.map (·.text)) (Tree.default default.tree)))
  obtain ⟨⟨e, f, r⟩, rfl, hp, hu⟩ := AttributePath.under_selection
    (aboveParts above start index (Tree.paren (.branch .select (AttributePath.selection head.text
      first.text (names.map (·.text)) (Tree.default default.tree))))) (start + 1) 1 head.text
    first.text (names.map (·.text)) (Tree.default default.tree) head.isFree
  have hw : Tree.widthOf (AttributePath.selection head.text first.text (names.map (·.text)) []) =
      (dotted (head :: first :: names)).utf8ByteSize :=
    (Tree.width_branch ..).symm.trans (width_tree (chain head (first :: names)))
  rw [Usage.within_paren]
  refine (congrArg (List.map answer) hu).trans ?_
  rw [List.map_cons, Usage.withinAll_default, answer, hp, hw, usages]
  have hdefault := hd.paren (fits_part hs rfl rfl
    (start + 1 + (dotted (head :: first :: names)).utf8ByteSize + 4) 6 (Tree.paren default.tree))
  have hr : Scope.resolveName _ (.static head.text) = _ :=
    hs.resolveName fun hk => by cases hk
  refine congrArg₂ (· :: ·) (congrArg (path head (first :: names), ·) hr) (hdefault.trans ?_)
  simp only [behind_append]
  rfl

theorem meant_items {items : List Term} (hi : ∀ t ∈ items, t.Meant) {c : Context}
    {above : List Spot} (hc : ∀ s i u, c.Fits (ofTree above s i u)) (start index : Nat)
    (blank close : Token) :
    (Usage.withinAll above start index
      (Tree.items (treeAll items) ++ [.leaf blank, .leaf close])).map answer =
        usagesAll c (start + 1) items := by
  induction items generalizing start index with
  | nil => rfl
  | cons item items ih =>
    obtain ⟨hitem, hitems⟩ := List.forall_mem_cons.mp hi
    have hnext : start + 1 + (Tree.paren item.tree).width + 1 =
        behind (start + 1) ("(" ++ item.render ++ ") ") := by
      rw [Tree.width_paren, width_tree]
      simp only [behind_append, ← Nat.add_assoc]
      rfl
    rw [treeAll, Usage.withinAll_items_cons, List.map_append, hitem.paren (hc ..), ih hitems, hnext,
      usagesAll]
    rfl

theorem meant_list {items : List Term} (hi : ∀ t ∈ items, t.Meant) : (list items).Meant := by
  intro c above start index _ h
  rw [tree] at h ⊢
  rw [Tree.list, Usage.within_branch rfl]
  exact meant_items hi (fits_part h rfl rfl) _ _ _ _

theorem meant (t : Term) : t.Meant := by
  induction t using Term.induct with
  | chain head names => exact meant_chain head names
  | one => exact meant_one
  | text => exact meant_text
  | letIn name value body ihv ihb => exact meant_letIn ihv ihb
  | lambda name body ih => exact meant_lambda ih
  | patternLambda first second body ih => exact meant_patternLambda ih
  | withIn source body ihs ihb => exact meant_withIn ihs ihb
  | recSet name value other ih => exact meant_recSet ih
  | apply function argument ihf iha => exact meant_apply ihf iha
  | fallback head first names default ih => exact meant_fallback ih
  | list items ih => exact meant_list ih

theorem fits_root (t : Term) :
    Context.Fits ⟨[], false⟩ (ofTree [(root .root [t.tree]).toSpot] 0 0 t.tree) where
  scopes _ := rfl
  withs := rfl

/-- The text of a term that does not nest too deeply is read without a problem. Its usages are the
chains and the inherited names of the term from left to right, and the first name of each means what
the innermost binder of it in the term says, else what a `with` around it or a builtin provides. -/
theorem usages_parse (t : Term) (h : t.depth ≤ 100) :
    (parse t.render).errors = [] ∧
    (Usage.under (parse t.render).root).map
        (fun u => (u.path, (Resolution.of (parse t.render).root u).symbols 0)) =
      t.usages ⟨[], false⟩ 0 := by
  rw [parse_term t h]
  refine ⟨rfl, ?_⟩
  have hm := t.meant ⟨[], false⟩ [(root .root [t.tree]).toSpot] 0 0 rfl t.fits_root
  rw [← hm, Parse.root, Usage.under_root]
  simp only [Resolution.symbols_zero]
  rfl

theorem usages_parse_shadowed : ∃ t : Term,
    t.render = "let x = map; in with (x.a); rec \x7b y = (x: x.b); inherit z; \x7d" ∧
    (parse t.render).errors = [] ∧
    (Usage.under (parse t.render).root).map
        (fun u => (u.path, (Resolution.of (parse t.render).root u).symbols 0)) =
      [(.ofNames "map" [], [.builtin (.ofMember "map")]),
        (.ofNames "x" ["a"], [.declared ⟨.letIn, 0, 60⟩ (.single (.static "x"))]),
        (.ofNames "x" ["b"], [.declared ⟨.lambda, 39, 45⟩ (.single (.static "x"))]),
        (.ofNames "z" [], [.adHoc (.static "z")])] := by
  let name (s : String) (hw : Scan.isWord s.toList = true) (hk : Scan.keyword? s.toList = none) :
    Identifier := ⟨s, hw, hk⟩
  let x := name "x" rfl rfl
  let t := letIn x (chain (name "map" rfl rfl) []) (withIn (chain x [name "a" rfl rfl])
    (recSet (name "y" rfl rfl) (lambda x (chain x [name "b" rfl rfl])) (name "z" rfl rfl)))
  obtain ⟨he, hu⟩ := usages_parse t (by decide)
  exact ⟨t, rfl, he, hu.trans (by decide)⟩

end Term

end NixScope
