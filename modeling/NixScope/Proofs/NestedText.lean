import NixScope.Proofs.Nests
import NixScope.Proofs.References
import NixScope.Proofs.Terms

namespace NixScope

open Syntax

namespace Syntax

namespace Tree

def pathDefinition (first : String) (rest : List String) (v : Tree) : Tree :=
  .branch .attrPathValue (.branch .attrPath (AttributePath.content first rest) ::
    spaced (.leaf Token.assign) ++ spaced v ++ [.leaf Token.semicolon])

def setEntry (d : Tree) : Tree :=
  .branch .attrSet (.leaf Token.leftBrace :: spaced d ++ spaced (.leaf Token.rightBrace))

/-- A `let` with one entry. -/
def letEntry (d b : Tree) : Tree :=
  .branch .letIn (.leaf (Token.word "let") :: spaced d ++ spaced (.leaf (Token.word "in")) ++
    spaced b)

section

open Token

variable (first : String) (rest : List String) (v d b : Tree)

theorem leaves_pathDefinition : (pathDefinition first rest v).leaves =
    Rose.leavesOf (AttributePath.content first rest) ++
      space :: assign :: space :: (v.leaves ++ [semicolon]) := by
  simp [pathDefinition, spaced, Rose.leaves, Rose.leavesOf]

theorem leaves_setEntry :
    (setEntry d).leaves = leftBrace :: space :: (d.leaves ++ [space, rightBrace]) := by
  simp [setEntry, spaced, Rose.leaves, Rose.leavesOf]

theorem leaves_letEntry : (letEntry d b).leaves =
    word "let" :: space :: (d.leaves ++ space :: word "in" :: space :: b.leaves) := by
  simp [letEntry, spaced, Rose.leaves, Rose.leavesOf]

end

end Tree

namespace Grammar

open Rule Token Syntax.Tree Place

variable {l : Nat} {ws : List Token} {v b : Tree} (first : String) (rest : List String)

theorem opening_pathDefinition (v : Tree) :
    ∃ k, opening [pathDefinition first rest v] = some k ∧ k.startsAttr = true := by
  obtain ⟨k, ho, hk⟩ := (Attribute.attrTree_tree first).starts
  refine ⟨k, ?_, hk⟩
  rw [pathDefinition, opening_branch]
  exact opening_cons ((opening_branch _ _).trans (opening_cons ho _)) _

theorem rebuilds_pathDefinition (hw : Blank ws) (hv : (nested l .expr).Rebuilds (spaced v) Ended) :
    (attrPathValue (nested l)).Rebuilds (ws.map .leaf ++ [pathDefinition first rest v])
      fun _ => True := by
  obtain ⟨k, ho, hk⟩ := opening_pathDefinition first rest v
  have hattrs : ∀ a ∈ rest.map Attribute.tree, AttrTree a := by
    intro a ha
    obtain ⟨name, -, rfl⟩ := List.mem_map.mp ha
    exact Attribute.attrTree_tree name
  have hend := hv.cons (rebuilds_expect blank_nil (t := semicolon) rfl).single
    fun rest _ => ended_cons rfl rest
  have hassign := (rebuilds_expect blank_space (t := assign) rfl).cons_any hend
  have hseq := (rebuilds_attrPath (l := l) blank_nil (Attribute.attrTree_tree first) hattrs).cons
    hassign fun _ _ => nofun
  exact hseq.node hw ((opening_branch _ _).symm.trans ho) (not_isTrivia_of_startsAttr hk)
    .attrPathValue

theorem rebuilds_entry_pathDefinition {k : Kind} (hk : k.startsAttr = false)
    (hv : (nested l .expr).Rebuilds (spaced v) Ended) :
    (many (binding (nested l) k)).Rebuilds (spaced (pathDefinition first rest v))
      fun tokens => aheadIn tokens 0 = some k := by
  obtain ⟨k', ho, hk'⟩ := opening_pathDefinition first rest v
  have hd := Rebuilds.many_cons (advances_binding (reads_nested l) k)
    (rebuilds_pathDefinition first rest blank_space hv) (fun p tokens hp => by
      refine binding_of_attr (k := k') ?_ hk' hk
      rw [peek, ahead, hp]
      exact aheadIn_spaced ho (not_isTrivia_of_startsAttr hk') tokens)
    (rebuilds_bindings_nil k) fun _ _ => trivial
  rwa [List.append_nil] at hd

/-- Behind an opening brace, a path is no pattern: its first name is followed by a dot or by an
equals sign. -/
theorem lambdaAhead_setEntry (tokens : List Token) (offset : Nat) :
    lambdaAhead ⟨Rose.leavesOf [setEntry (pathDefinition first rest v)] ++ tokens, offset, []⟩ =
      false := by
  have hleaves : Rose.leavesOf [setEntry (pathDefinition first rest v)] ++ tokens =
      leftBrace :: space :: ((Attribute.tree first).leaves ++
        (Rose.leavesOf (dotted (rest.map Attribute.tree)) ++
          space :: assign :: space ::
            (v.leaves ++ semicolon :: space :: rightBrace :: tokens))) := by
    simp [setEntry, spaced, pathDefinition, AttributePath.content, Rose.leaves, Rose.leavesOf]
  have hnext : ∀ tokens, aheadIn (Rose.leavesOf (dotted (rest.map Attribute.tree)) ++
      space :: assign :: tokens) 0 = some .dot ∨
        aheadIn (Rose.leavesOf (dotted (rest.map Attribute.tree)) ++ space :: assign :: tokens) 0 =
          some .assign := by
    intro tokens
    cases rest with
    | nil => exact .inr rfl
    | cons name names => exact .inl rfl
  rw [hleaves, Bool.eq_false_iff]
  intro ha
  obtain ⟨hp, -⟩ | ⟨-, ha⟩ := lambdaAhead_iff.mp ha
  · cases hp
  -- behind the brace, a word is followed by a dot or an equals sign, and a quote starts no pattern
  obtain ⟨hc, -, hk⟩ | hc := Attribute.content_cases first
  · have hword : (word first).isTrivia = false := by
      obtain hk | hk := hk <;> rw [isTrivia, hk] <;> rfl
    have ht : (Attribute.tree first).leaves = [word first] := by
      rw [Attribute.tree, hc]
      rfl
    have hone : ∀ more, aheadIn (leftBrace :: space :: word first :: more) 1 =
        some (word first).kind := fun more => aheadIn_cons hword more
    have htwo : ∀ more, aheadIn (leftBrace :: space :: word first :: more) 2 =
        aheadIn more 0 := fun more => aheadIn_cons_succ hword more 0
    rw [ht, List.singleton_append, patternAhead_iff] at ha
    simp only [ahead, hone, htwo] at ha
    obtain hn | hn := hnext (space :: (v.leaves ++ semicolon :: space :: rightBrace :: tokens)) <;>
      obtain hk | hk := hk <;> simp [hn, hk] at ha
  · have ht : (Attribute.tree first).leaves = quoted first.toList := by
      rw [Attribute.tree, hc, Rose.leaves, Rose.leavesOf, Rose.leaves, leavesOf_map_leaf]
      exact List.append_nil _
    have hone : ∀ more, aheadIn (leftBrace :: space :: (quoted first.toList ++ more)) 1 =
        some .quote := fun _ => rfl
    rw [ht, patternAhead_iff] at ha
    simp [ahead, hone] at ha

theorem rebuilds_setEntry (hw : Blank ws) (hv : (nested l .expr).Rebuilds (spaced v) Ended) :
    (nested (l + 2) .expr).Rebuilds (ws.map .leaf ++ [setEntry (pathDefinition first rest v)])
      Ended := by
  have hclose := (rebuilds_expect blank_space (t := rightBrace) rfl).single
  have hopen := (rebuilds_expect blank_nil (t := leftBrace) rfl).cons_any
    ((rebuilds_entry_pathDefinition first rest rfl hv).cons hclose fun _ _ => rfl)
  have hrec := (rebuilds_when_neg .recKw token).cons hopen fun _ _ => nofun
  have hatom := Rebuilds.atom (hrec.node blank_nil rfl rfl .attrSet) blank_nil rfl rfl
    (.attrSet (.inl rfl))
  exact rebuilds_expr_atom hw rfl rfl hatom fun tokens offset _ =>
    lambdaAhead_setEntry first rest tokens offset

theorem rebuilds_letEntry (hw : Blank ws) (hv : (nested l .expr).Rebuilds (spaced v) Ended)
    (hb : (nested l .expr).Rebuilds (spaced b) Ended) :
    (nested (l + 1) .expr).Rebuilds (ws.map .leaf ++ [letEntry (pathDefinition first rest v) b])
      Ended := by
  have hin := (rebuilds_expect blank_space (t := word "in") rfl).cons_any hb.single
  have hentry := rebuilds_entry_pathDefinition first rest (k := .inKw) rfl hv
  have hseq := (rebuilds_token blank_nil (t := word "let") rfl).cons_any
    (hentry.cons hin fun _ _ => rfl)
  exact Rebuilds.expr (hseq.node hw rfl rfl .letIn) hw fun _ _ _ => .letIn rfl

end Grammar

end Syntax

structure NamePath where
  first : String
  rest : List String

namespace NamePath

def toList (g : NamePath) : List String := g.first :: g.rest

def render (g : NamePath) : String := (AttributePath.ofNames g.first g.rest).render

/-- A set that defines the first of the paths, for a set that defines the next one, and so on. The
last one is defined as `1`. -/
def value : List NamePath → String
  | [] => "1"
  | g :: gs => "\x7b " ++ g.render ++ " = " ++ value gs ++ "; \x7d"

def valueTree : List NamePath → Tree
  | [] => Term.oneTree
  | g :: gs => Tree.setEntry (Tree.pathDefinition g.first g.rest (valueTree gs))

section

open Grammar Token Rose

variable {us : List Token} {rest : List Char} (first : String) (names : List String)

/-- Each set takes two levels of nesting. -/
theorem rebuilds_value {l : Nat} {ws : List Token} (hw : Blank ws) (gs : List NamePath)
    (hl : 2 * gs.length + 2 ≤ l) :
    (nested l .expr).Rebuilds (ws.map .leaf ++ [valueTree gs]) Ended := by
  induction gs generalizing l ws with
  | nil =>
    obtain ⟨l, rfl⟩ := Nat.exists_eq_add_of_le' hl
    exact Term.rebuilds_one l hw
  | cons g gs ih =>
    rw [List.length_cons] at hl
    obtain ⟨l, rfl⟩ : ∃ m, l = m + 2 := Nat.exists_eq_add_of_le' (by omega)
    exact rebuilds_setEntry g.first g.rest hw (ih blank_space (by omega))

theorem written_content (h : Scan.Clear rest) :
    Written (leavesOf (AttributePath.content first names)) rest := by
  have hclear := AttributePath.clear_dotted names h
  refine ⟨(Attribute.lexes_tree first hclear).append (AttributePath.lexes_dotted names h), ?_⟩
  rw [AttributePath.content, leavesOf, chars_append, List.append_assoc]
  exact Attribute.calm_tree first hclear.calm

theorem startsSolid_content :
    startsSolid (leavesOf (AttributePath.content first names)) = true := by
  rw [AttributePath.content, leavesOf]
  apply startsSolid_append
  obtain ⟨ht, hw⟩ | ht := Attribute.leaves_tree first
  · rw [ht]
    exact startsSolid_word hw []
  · rw [ht]
    rfl

theorem written_pathDefinition {v : Tree} (h : Written (v.leaves ++ semicolon :: us) rest)
    (hs : startsSolid v.leaves = true) :
    Written ((Tree.pathDefinition first names v).leaves ++ us) rest := by
  have hvalue := h.space (startsSolid_append hs _)
  have hassign := (hvalue.symbol (t := assign) rfl (by decide) (by decide) rfl rfl).space rfl
  have hclear : Scan.Clear (chars (space :: assign :: space :: (v.leaves ++ semicolon :: us)) ++
      rest) := ⟨Scan.calm_of_stop (by decide) (by decide) (by decide), rfl⟩
  have hpath := (written_content first names hclear).append hassign
  rw [Tree.leaves_pathDefinition]
  simpa using hpath

theorem startsSolid_value (gs : List NamePath) : startsSolid (valueTree gs).leaves = true := by
  cases gs <;> rfl

theorem written_value (h : Written us rest) (gs : List NamePath) :
    Written ((valueTree gs).leaves ++ semicolon :: us) rest := by
  induction gs generalizing us with
  | nil => exact h.semicolon.one rfl
  | cons g gs ih =>
    have hclose := h.semicolon.rightBrace.space rfl
    have hentry := (written_pathDefinition g.first g.rest (ih hclose) (startsSolid_value gs)).space
      (by
        rw [Tree.leaves_pathDefinition, List.append_assoc]
        exact startsSolid_append (startsSolid_content g.first g.rest) _)
    rw [valueTree, Tree.leaves_setEntry]
    simpa using hentry.leftBrace

theorem chars_content : chars (leavesOf (AttributePath.content first names)) =
    (AttributePath.ofNames first names).render.toList := by
  have h := AttributePath.chars_dotted first names
  rw [AttributePath.leavesOf_dotted_cons, chars_cons] at h
  exact (List.cons.inj h).2.symm

theorem chars_pathDefinition {v : Tree} {text : String} (hv : chars v.leaves = text.toList) :
    chars (Tree.pathDefinition first names v).leaves =
      ((AttributePath.ofNames first names).render ++ " = " ++ text ++ ";").toList := by
  simp only [Tree.leaves_pathDefinition, chars_append, chars_cons, chars_content, hv,
    String.toList_append, List.append_assoc]
  rfl

theorem chars_value (gs : List NamePath) : chars (valueTree gs).leaves = (value gs).toList := by
  induction gs with
  | nil => rfl
  | cons g gs ih =>
    simp only [valueTree, Tree.leaves_setEntry, chars_append, chars_cons,
      chars_pathDefinition g.first g.rest ih, value, render, String.toList_append,
      List.append_assoc]
    rfl

def usageTree (head : String) : List String → Tree
  | [] => .branch .var [.leaf (word head)]
  | name :: names => .branch .select (AttributePath.selection head name names [])

theorem rebuilds_usage (l : Nat) {ws : List Token} (hw : Blank ws) (head : Identifier)
    (names : List String) :
    (nested (l + 2) .expr).Rebuilds (ws.map .leaf ++ [usageTree head.text names]) Ended := by
  cases names with
  | nil => exact rebuilds_expr_var hw (Term.kind_word head)
  | cons name names => exact AttributePath.rebuilds_expr_path head.isFree name names hw

theorem leaves_usage (head : Identifier) (names : List String) :
    (usageTree head.text names).leaves = leavesOf (AttributePath.content head.text names) := by
  rw [AttributePath.content, leavesOf, Term.leaves_attribute]
  cases names with
  | nil => rfl
  | cons name names =>
    rw [usageTree, leaves, AttributePath.leavesOf_selection, leavesOf, List.append_nil]
    rfl

end

end NamePath

/-- Groups of names: the first name of the first group, the others of this group, and the groups
behind it. -/
structure Nest where
  head : Identifier
  rest : List String
  inner : List NamePath

namespace Nest

open NamePath

def selected (t : Nest) : List String := t.rest ++ t.inner.flatMap NamePath.toList

def names (t : Nest) : List String := t.head.text :: t.selected

/-- The groups as nested definitions, with a usage of all names behind them. -/
def text (t : Nest) : String :=
  "let " ++ (NamePath.mk t.head.text t.rest).render ++ " = " ++ value t.inner ++ "; in " ++
    (AttributePath.ofNames t.head.text t.selected).render

def tree (t : Nest) : Tree :=
  Tree.letEntry (Tree.pathDefinition t.head.text t.rest (valueTree t.inner))
    (usageTree t.head.text t.selected)

section

open Grammar Token Rose

variable (t : Nest)

theorem written_tree : Written t.tree.leaves [] := by
  have hbody := written_content t.head.text t.selected Scan.clear_nil
  rw [← leaves_usage] at hbody
  have hsolid := startsSolid_content t.head.text t.selected
  rw [← leaves_usage] at hsolid
  have hin := ((hbody.space hsolid).word (w := "in") rfl rfl).space rfl
  have hentry := written_pathDefinition t.head.text t.rest (written_value hin t.inner)
    (startsSolid_value t.inner)
  have hstart := startsSolid_append (startsSolid_content t.head.text t.rest)
    (space :: assign :: space :: ((valueTree t.inner).leaves ++ [semicolon]))
  rw [← Tree.leaves_pathDefinition] at hstart
  rw [tree, Tree.leaves_letEntry]
  exact (hentry.space (startsSolid_append hstart _)).word (w := "let") rfl rfl

theorem chars_tree : chars t.tree.leaves = t.text.toList := by
  have hentry := chars_pathDefinition t.head.text t.rest (chars_value t.inner)
  have hbody := chars_content t.head.text t.selected
  rw [← leaves_usage] at hbody
  simp only [tree, Tree.leaves_letEntry, chars_append, chars_cons, hentry, hbody, text,
    NamePath.render, String.toList_append, List.append_assoc]
  rfl

theorem parse_text (h : t.inner.length + 1 ≤ 200) : parse t.text = ⟨[t.tree], []⟩ := by
  -- the `let` takes one of the 512 levels
  have hvalue := rebuilds_value (l := 511) blank_space t.inner (by omega)
  have hbody := rebuilds_usage 509 blank_space t.head t.selected
  have hlet := rebuilds_letEntry t.head.text t.rest blank_nil hvalue hbody
  rw [List.map_nil, List.nil_append] at hlet
  exact Parse.parse_of_rebuilds t.written_tree.lexes t.chars_tree.symm hlet

end

end Nest

end NixScope
