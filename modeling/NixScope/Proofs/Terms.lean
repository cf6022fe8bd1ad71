import NixScope.Proofs.PathText
import NixScope.Proofs.Phrases

namespace NixScope

open Syntax

/-- A word that is no keyword. -/
structure Identifier where
  text : String
  isWord : Scan.isWord text.toList = true
  isFree : Scan.keyword? text.toList = none

inductive Term
  /-- A variable and what is selected from it, as in `x.a.b`. -/
  | chain (head : Identifier) (rest : List Identifier)
  | one
  | text
  | letIn (name : Identifier) (value body : Term)
  | lambda (name : Identifier) (body : Term)
  /-- A lambda over two names, the second with a default. -/
  | patternLambda (first second : Identifier) (body : Term)
  | withIn (source body : Term)
  /-- A recursive set that defines a name and inherits another. -/
  | recSet (name : Identifier) (value : Term) (other : Identifier)
  | apply (function argument : Term)
  /-- A selection with a default, as in `x.a or d`. -/
  | fallback (head first : Identifier) (rest : List Identifier) (default : Term)
  | list (items : List Term)

namespace Term

def dotted (names : List Identifier) : String := ".".intercalate (names.map (·.text))

mutual

def render : Term → String
  | chain head rest => dotted (head :: rest)
  | one => "1"
  | text => "\"s\""
  | letIn name value body =>
    "let " ++ name.text ++ " = " ++ value.render ++ "; in " ++ body.render
  | lambda name body => "(" ++ name.text ++ ": " ++ body.render ++ ")"
  | patternLambda first second body =>
    "(\x7b " ++ first.text ++ ", " ++ second.text ++ " ? 1, ... \x7d: " ++ body.render ++ ")"
  | withIn source body => "with (" ++ source.render ++ "); " ++ body.render
  | recSet name value other =>
    "rec \x7b " ++ name.text ++ " = " ++ value.render ++ "; inherit " ++ other.text ++ "; \x7d"
  | apply function argument => "(" ++ function.render ++ ") (" ++ argument.render ++ ")"
  | fallback head first rest default =>
    "(" ++ dotted (head :: first :: rest) ++ " or (" ++ default.render ++ "))"
  | list items => "[ " ++ " ".intercalate (renderAll items) ++ " ]"

def renderAll : List Term → List String
  | [] => []
  | item :: items => ("(" ++ item.render ++ ")") :: renderAll items

end

mutual

def depth : Term → Nat
  | chain _ _ => 0
  | one => 0
  | text => 0
  | letIn _ value body => max value.depth body.depth + 1
  | lambda _ body => body.depth + 1
  | patternLambda _ _ body => body.depth + 1
  | withIn source body => max source.depth body.depth + 1
  | recSet _ value _ => value.depth + 1
  | apply function argument => max function.depth argument.depth + 1
  | fallback _ _ _ default => default.depth + 1
  | list items => depthAll items + 1

def depthAll : List Term → Nat
  | [] => 0
  | item :: items => max item.depth (depthAll items)

end

def oneTree : Tree := .branch .literal [.leaf ⟨.integer, "1"⟩]

mutual

def tree : Term → Tree
  | chain head [] => .branch .var [.leaf (Token.word head.text)]
  | chain head (first :: rest) =>
    .branch .select (AttributePath.selection head.text first.text (rest.map (·.text)) [])
  | one => oneTree
  | text => .branch .string ((Token.quoted ['s']).map .leaf)
  | letIn name value body => Tree.letIn (Attribute.tree name.text) value.tree body.tree
  | lambda name body => Tree.paren (Tree.nameLambda (Token.word name.text) body.tree)
  | patternLambda first second body =>
    Tree.paren (Tree.patternLambda (Token.word first.text) (Token.word second.text) oneTree
      body.tree)
  | withIn source body => Tree.withIn source.tree body.tree
  | recSet name value other =>
    Tree.recSet (Attribute.tree name.text) value.tree (Attribute.tree other.text)
  | apply function argument => Tree.apply function.tree argument.tree
  | fallback head first rest default =>
    Tree.paren (.branch .select (AttributePath.selection head.text first.text
      (rest.map (·.text)) (Tree.default default.tree)))
  | list items => Tree.list (treeAll items)

def treeAll : List Term → List Tree
  | [] => []
  | item :: items => item.tree :: treeAll items

end

@[elab_as_elim]
theorem induct {motive : Term → Prop} (chain : ∀ head rest, motive (chain head rest))
    (one : motive one) (text : motive text)
    (letIn : ∀ name value body, motive value → motive body → motive (letIn name value body))
    (lambda : ∀ name body, motive body → motive (lambda name body))
    (patternLambda : ∀ first second body, motive body → motive (patternLambda first second body))
    (withIn : ∀ source body, motive source → motive body → motive (withIn source body))
    (recSet : ∀ name value other, motive value → motive (recSet name value other))
    (apply : ∀ function argument, motive function → motive argument →
      motive (apply function argument))
    (fallback : ∀ head first rest default, motive default →
      motive (fallback head first rest default))
    (list : ∀ items, (∀ t ∈ items, motive t) → motive (list items)) (t : Term) : motive t :=
  @Term.rec motive (fun items => ∀ t ∈ items, motive t) chain one text letIn lambda patternLambda
    withIn recSet apply fallback list (fun _ ht => absurd ht List.not_mem_nil)
    (fun _ _ ht hts => List.forall_mem_cons.mpr ⟨ht, hts⟩) t

theorem treeAll_eq (items : List Term) : treeAll items = items.map tree := by
  induction items with
  | nil => rfl
  | cons item items ih => rw [treeAll, ih, List.map_cons]

theorem depth_le_depthAll {items : List Term} {t : Term} (h : t ∈ items) :
    t.depth ≤ depthAll items := by
  induction items with
  | nil => simp at h
  | cons item items ih =>
    rw [depthAll]
    obtain rfl | h := List.mem_cons.mp h
    · omega
    · have hle := ih h
      omega

section

open Grammar Token Tree

theorem attrTree (name : Identifier) : AttrTree (Attribute.tree name.text) :=
  Attribute.attrTree_tree name.text

theorem kind_word (name : Identifier) : (word name.text).kind = .ident :=
  AttributePath.kind_word name.isFree

theorem rebuilds_chain (l : Nat) {ws : List Token} (hw : Blank ws) (head : Identifier)
    (rest : List Identifier) :
    (nested (l + 2) .expr).Rebuilds (ws.map .leaf ++ [(chain head rest).tree]) Ended := by
  cases rest with
  | nil => exact rebuilds_expr_var hw (kind_word head)
  | cons first rest => exact AttributePath.rebuilds_expr_path head.isFree _ _ hw

theorem rebuilds_one (l : Nat) {ws : List Token} (hw : Blank ws) :
    (nested (l + 2) .expr).Rebuilds (ws.map .leaf ++ [one.tree]) Ended :=
  rebuilds_expr_atom hw rfl rfl (rebuilds_integer blank_nil rfl) fun rest offset _ =>
    lambdaAhead_of_opening rfl rfl (by decide) (by decide) rest offset

theorem rebuilds_text (l : Nat) {ws : List Token} (hw : Blank ws) :
    (nested (l + 2) .expr).Rebuilds (ws.map .leaf ++ [text.tree]) Ended :=
  rebuilds_expr_atom hw rfl rfl (rebuilds_quoted blank_nil _) fun rest offset _ =>
    lambdaAhead_of_opening rfl rfl (by decide) (by decide) rest offset

theorem rebuilds_expr_paren {l : Nat} {ws : List Token} {e : Tree} (hw : Blank ws)
    (he : (nested l .expr).Rebuilds [e] Ended) :
    (nested (l + 2) .expr).Rebuilds (ws.map .leaf ++ [paren e]) Ended :=
  rebuilds_expr_atom hw rfl rfl (rebuilds_paren blank_nil he) fun rest offset _ =>
    lambdaAhead_of_opening rfl rfl (by decide) (by decide) rest offset

/-- No construct takes more than four levels of nesting. -/
theorem rebuilds_tree (t : Term) {l : Nat} {ws : List Token} (hw : Blank ws)
    (h : 4 * t.depth + 2 ≤ l) :
    (nested l .expr).Rebuilds (ws.map .leaf ++ [t.tree]) Ended := by
  induction t using Term.induct generalizing l ws with
  | chain head rest =>
    obtain ⟨l, rfl⟩ := Nat.exists_eq_add_of_le' (Nat.le_trans (Nat.le_add_left 2 _) h)
    exact rebuilds_chain l hw head rest
  | one =>
    obtain ⟨l, rfl⟩ := Nat.exists_eq_add_of_le' h
    exact rebuilds_one l hw
  | text =>
    obtain ⟨l, rfl⟩ := Nat.exists_eq_add_of_le' h
    exact rebuilds_text l hw
  | letIn name value body ihv ihb =>
    rw [depth] at h
    obtain ⟨l, rfl⟩ : ∃ m, l = m + 1 := Nat.exists_eq_add_of_le' (by omega)
    exact rebuilds_letIn hw (attrTree name) (ihv blank_space (by omega))
      (ihb blank_space (by omega))
  | lambda name body ih =>
    rw [depth] at h
    obtain ⟨l, rfl⟩ : ∃ m, l = m + 3 := Nat.exists_eq_add_of_le' (by omega)
    exact rebuilds_expr_paren hw
      (rebuilds_nameLambda (kind_word name) (ih blank_space (by omega)))
  | patternLambda first second body ih =>
    rw [depth] at h
    obtain ⟨l, rfl⟩ : ∃ m, l = m + 5 := Nat.exists_eq_add_of_le' (by omega)
    exact rebuilds_expr_paren hw (rebuilds_patternLambda (kind_word first) (kind_word second)
      (rebuilds_one l blank_space) (ih blank_space (by omega)))
  | withIn source body ihs ihb =>
    rw [depth] at h
    obtain ⟨l, rfl⟩ : ∃ m, l = m + 3 := Nat.exists_eq_add_of_le' (by omega)
    exact rebuilds_withIn hw (ihs blank_nil (by omega)) (ihb blank_space (by omega))
  | recSet name value other ih =>
    rw [depth] at h
    obtain ⟨l, rfl⟩ : ∃ m, l = m + 2 := Nat.exists_eq_add_of_le' (by omega)
    exact rebuilds_recSet hw (attrTree name) (ih blank_space (by omega)) (attrTree other)
  | apply function argument ihf iha =>
    rw [depth] at h
    obtain ⟨l, rfl⟩ : ∃ m, l = m + 2 := Nat.exists_eq_add_of_le' (by omega)
    exact rebuilds_apply hw (ihf blank_nil (by omega)) (iha blank_nil (by omega))
  | fallback head first rest default ih =>
    rw [depth] at h
    obtain ⟨l, rfl⟩ : ∃ m, l = m + 4 := Nat.exists_eq_add_of_le' (by omega)
    have hd := rebuilds_default (ih (l := l) blank_nil (by omega))
    have hor : ∀ rest, Place.aheadIn (Rose.leavesOf (Tree.default default.tree) ++ rest) 0 =
        some .orKw := fun _ => rfl
    have hs := AttributePath.rebuilds_expr_selection head.isFree first.text (rest.map (·.text))
      blank_nil (hd.mono fun _ hr => hr.ne rfl) fun rest _ => by simp [hor]
    exact rebuilds_expr_paren hw hs
  | list items ih =>
    rw [depth] at h
    obtain ⟨l, rfl⟩ : ∃ m, l = m + 3 := Nat.exists_eq_add_of_le' (by omega)
    refine rebuilds_list hw fun t ht => ?_
    rw [treeAll_eq] at ht
    obtain ⟨item, hi, rfl⟩ := List.mem_map.mp ht
    have hle := depth_le_depthAll hi
    exact ih item hi blank_nil (by omega)

end

section

open Token Rose

/-- What may stand behind a term: a closing parenthesis, a semicolon, or nothing. -/
def Stopped (rest : List Char) : Prop := rest.head?.all (fun c => c == ')' || c == ';') = true

variable {ts : List Token} {rest : List Char}

theorem Stopped.clear (h : Stopped rest) : Scan.Clear rest := by
  cases rest with
  | nil => exact Scan.clear_nil
  | cons c cs =>
    rw [Stopped, List.head?_cons, Option.all_some, Bool.or_eq_true, beq_iff_eq, beq_iff_eq] at h
    obtain rfl | rfl := h
    · exact ⟨Scan.calm_of_stop (by decide) (by decide) (by decide), rfl⟩
    · exact ⟨Scan.calm_of_stop (by decide) (by decide) (by decide), rfl⟩

theorem Stopped.number (h : Stopped rest) :
    rest.head?.all (fun c => !c.isDigit && c != '.') = true := by
  cases rest with
  | nil => rfl
  | cons c cs =>
    rw [Stopped, List.head?_cons, Option.all_some, Bool.or_eq_true, beq_iff_eq, beq_iff_eq] at h
    obtain rfl | rfl := h <;> rfl

theorem written_nil (h : Stopped rest) : Written [] rest := ⟨lexes_nil rest, h.clear.calm⟩

theorem isPlain_text (name : Identifier) : Attribute.isPlain name.text.toList = true := by
  refine Attribute.isPlain_iff.mpr ⟨name.isWord, ?_⟩
  rw [name.isFree]
  rfl

theorem leaves_attribute (name : Identifier) :
    (Attribute.tree name.text).leaves = [word name.text] := by
  rw [Attribute.tree, Attribute.content, if_pos (isPlain_text name)]
  rfl

theorem startsSolid_tree (t : Term) : startsSolid t.tree.leaves = true := by
  cases t with
  | chain head rest =>
    cases rest with
    | nil => exact startsSolid_word head.isWord _
    | cons first rest => exact startsSolid_word head.isWord _
  | _ => rfl

theorem Written.prepend {us : List Token} (h : Written us rest)
    (ht : ∀ {rest}, Stopped rest → Written ts rest) (hs : Stopped (chars us ++ rest)) :
    Written (ts ++ us) rest :=
  (ht hs).append h

theorem Written.parens {us : List Token} (h : Written us rest)
    (ht : ∀ {rest}, Stopped rest → Written ts rest) :
    Written (leftParen :: (ts ++ rightParen :: us)) rest :=
  (Written.prepend h.rightParen ht rfl).leftParen

theorem Written.definition {us : List Token} (h : Written us rest) (name : Identifier)
    (ht : ∀ {rest}, Stopped rest → Written ts rest) (hs : startsSolid ts = true) :
    Written (word name.text :: space :: assign :: space :: (ts ++ semicolon :: us)) rest := by
  have hvalue := (Written.prepend h.semicolon ht rfl).space (startsSolid_append hs _)
  have hassign := hvalue.symbol (t := assign) rfl (by decide) (by decide) rfl rfl
  exact (hassign.space rfl).word name.isWord rfl

theorem written_chain (head : Identifier) (names : List Identifier) (h : Scan.Clear rest) :
    Written (chain head names).tree.leaves rest := by
  have hnil : Written [] rest := ⟨lexes_nil rest, h.calm⟩
  cases names with
  | nil => exact hnil.word head.isWord h.word
  | cons first names => exact AttributePath.written_selection _ _ head.isWord h

theorem written_fallback (head first : Identifier) (names : List Identifier) {d : Tree}
    (h : Stopped rest) (hd : ∀ {rest}, Stopped rest → Written d.leaves rest) :
    Written (leavesOf (AttributePath.selection head.text first.text (names.map (·.text))
      (Tree.default d))) rest := by
  have hparens := Written.parens (written_nil h) hd
  have hor := (hparens.space rfl).word (w := "or") rfl rfl
  have hdefault := hor.space rfl
  rw [← Tree.leavesOf_default] at hdefault
  have hclear : Scan.Clear (chars (leavesOf (Tree.default d)) ++ rest) := by
    rw [Tree.leavesOf_default]
    exact ⟨Scan.calm_of_stop (by decide) (by decide) (by decide), rfl⟩
  have hpath := AttributePath.written_selection first.text (names.map (·.text)) head.isWord hclear
  have hs := hpath.append hdefault
  rw [AttributePath.leavesOf_selection, leavesOf, List.append_nil] at hs
  rw [AttributePath.leavesOf_selection]
  exact hs

theorem written_items {us : List Token} (h : Written us rest) (items : List Term)
    (hi : ∀ t ∈ items, ∀ {rest}, Stopped rest → Written t.tree.leaves rest) :
    Written (leavesOf (Tree.items (treeAll items)) ++ us) rest := by
  induction items with
  | nil => exact h
  | cons item items ih =>
    obtain ⟨hitem, hitems⟩ := List.forall_mem_cons.mp hi
    rw [treeAll, Tree.leavesOf_items_cons, List.cons_append, List.cons_append, List.append_assoc,
      List.cons_append]
    exact (Written.parens (ih hitems) hitem).space rfl

/-- A term is read as its tokens where it may end. -/
theorem written_tree (t : Term) (h : Stopped rest) : Written t.tree.leaves rest := by
  induction t using Term.induct generalizing rest with
  | chain head names => exact written_chain head names h.clear
  | one => exact (written_nil h).one h.number
  | text =>
    rw [tree, leaves, Tree.leavesOf_map_leaf]
    exact written_quoted _ _
  | letIn name value body ihv ihb =>
    have hin := ((ihb h).space (startsSolid_tree body)).word (w := "in") rfl rfl
    have hname := Written.definition (hin.space rfl) name ihv (startsSolid_tree value)
    rw [tree, Tree.leaves_letIn, leaves_attribute]
    exact (hname.space (startsSolid_word name.isWord _)).word (w := "let") rfl rfl
  | lambda name body ih =>
    rw [tree, Tree.leaves_paren, Tree.leaves_nameLambda]
    refine Written.parens (written_nil h) fun h => ?_
    exact (((ih h).space (startsSolid_tree body)).colon rfl).word name.isWord rfl
  | patternLambda first second body ih =>
    rw [tree, Tree.leaves_paren, Tree.leaves_patternLambda]
    refine Written.parens (written_nil h) fun h => ?_
    have hbody := ((ih h).space (startsSolid_tree body)).colon rfl
    have hdots := (((hbody.rightBrace.space rfl).ellipsis).space rfl).comma
    have hone := (hdots.one rfl).space rfl
    have hdefault := (hone.symbol (t := question) rfl (by decide) (by decide) rfl rfl).space rfl
    have hsecond := (hdefault.word second.isWord rfl).space (startsSolid_word second.isWord _)
    have hfirst := (hsecond.comma.word first.isWord rfl).space (startsSolid_word first.isWord _)
    exact hfirst.leftBrace
  | withIn source body ihs ihb =>
    have hbody := ((ihb h).space (startsSolid_tree body)).semicolon
    rw [tree, Tree.leaves_withIn]
    exact ((Written.parens hbody ihs).space rfl).word (w := "with") rfl rfl
  | recSet name value other ih =>
    have hclose := (((written_nil h).rightBrace).space rfl).semicolon
    have hother := (hclose.word other.isWord rfl).space (startsSolid_word other.isWord _)
    have hinherit := (hother.word (w := "inherit") rfl rfl).space rfl
    have hname := Written.definition hinherit name ih (startsSolid_tree value)
    have hopen := (hname.space (startsSolid_word name.isWord _)).leftBrace
    rw [tree, Tree.leaves_recSet, leaves_attribute, leaves_attribute]
    exact (hopen.space rfl).word (w := "rec") rfl rfl
  | apply function argument ihf iha =>
    rw [tree, Tree.leaves_apply]
    exact Written.parens ((Written.parens (written_nil h) iha).space rfl) ihf
  | fallback head first names default ih =>
    rw [tree, Tree.leaves_paren]
    exact Written.parens (written_nil h) fun h => written_fallback head first names h ih
  | list items ih =>
    have hclose := (written_nil h).symbol (t := rightBracket) rfl (by decide) (by decide) rfl rfl
    have hblank : Written [if treeAll items = [] then ⟨.whitespace, "  "⟩ else space, rightBracket]
        rest := by
      split
      · exact hclose.blanks (w := [' ']) rfl (List.forall_mem_singleton.mpr rfl) rfl rfl
      · exact hclose.space rfl
    rw [tree, Tree.leaves_list]
    exact (written_items hblank items ih).symbol (t := leftBracket) rfl (by decide) (by decide) rfl
      rfl

theorem dotted_eq_render (first : Identifier) (names : List Identifier) :
    dotted (first :: names) =
      (AttributePath.ofNames first.text (names.map (·.text))).render := by
  have hn : ∀ name : Identifier, (Attribute.static name.text).render = name.text := fun name =>
    if_pos (isPlain_text name)
  simp [dotted, AttributePath.render, AttributePath.ofNames, AttributePath.toList, hn,
    Function.comp_def]

theorem chars_path (head first : Identifier) (names : List Identifier) :
    chars (word head.text :: leavesOf (Grammar.dotted
      (((first :: names).map (·.text)).map Attribute.tree))) =
        (dotted (head :: first :: names)).toList := by
  have hd : dotted (head :: first :: names) = head.text ++ "." ++ dotted (first :: names) :=
    String.intercalate_cons_cons
  rw [chars_cons, List.map_cons, ← AttributePath.chars_dotted, hd, ← dotted_eq_render]
  simp [Token.word]

theorem chars_items (items : List Term)
    (hi : ∀ t ∈ items, chars t.tree.leaves = t.render.toList) :
    chars (leavesOf (Tree.items (treeAll items))) =
      (renderAll items).flatMap fun item => ' ' :: item.toList := by
  induction items with
  | nil => rfl
  | cons item items ih =>
    obtain ⟨hitem, hitems⟩ := List.forall_mem_cons.mp hi
    rw [treeAll, Tree.leavesOf_items_cons, renderAll, List.flatMap_cons, ← ih hitems]
    simp only [chars_cons, chars_append, hitem, String.toList_append, List.append_assoc,
      List.cons_append]
    rfl

theorem toList_intercalate (item : String) (items : List String) :
    ' ' :: (" ".intercalate (item :: items)).toList =
      (item :: items).flatMap fun item => ' ' :: item.toList := by
  induction items generalizing item with
  | nil => simp
  | cons next items ih =>
    rw [String.intercalate_cons_cons, List.flatMap_cons, ← ih]
    simp

section

variable {t : Tree} {text : String} (h : chars t.leaves = text.toList)

include h

theorem chars_paren : chars (Tree.paren t).leaves = ("(" ++ text ++ ")").toList := by
  simp only [Tree.leaves_paren, chars_cons, chars_append, h, String.toList_append,
    List.append_assoc]
  rfl

theorem chars_nameLambda (name : Identifier) :
    chars (Tree.nameLambda (word name.text) t).leaves = (name.text ++ ": " ++ text).toList := by
  simp only [Tree.leaves_nameLambda, chars_cons, h, String.toList_append, List.append_assoc]
  rfl

theorem chars_patternLambda (first second : Identifier) :
    chars (Tree.patternLambda (word first.text) (word second.text) oneTree t).leaves =
      ("\x7b " ++ first.text ++ ", " ++ second.text ++ " ? 1, ... \x7d: " ++ text).toList := by
  simp only [Tree.leaves_patternLambda, chars_cons, chars_append, h, String.toList_append,
    List.append_assoc]
  rfl

theorem chars_fallback (head first : Identifier) (names : List Identifier) :
    chars (leaves (.branch .select (AttributePath.selection head.text first.text
      (names.map (·.text)) (Tree.default t)))) =
        (dotted (head :: first :: names) ++ " or (" ++ text ++ ")").toList := by
  have hp := chars_path head first names
  rw [chars_cons] at hp
  simp only [leaves, AttributePath.leavesOf_selection, Tree.leavesOf_default, chars_cons,
    chars_append, h, ← hp, String.toList_append, List.append_assoc]
  rfl

end

theorem chars_tree (t : Term) : chars t.tree.leaves = t.render.toList := by
  induction t using Term.induct with
  | chain head names =>
    cases names with
    | nil => exact List.append_nil _
    | cons first names =>
      rw [tree, leaves, AttributePath.leavesOf_selection, leavesOf, List.append_nil]
      exact chars_path head first names
  | one => rfl
  | text => rfl
  | letIn name value body ihv ihb =>
    simp only [tree, Tree.leaves_letIn, leaves_attribute, render, chars_cons, chars_append, ihv, ihb,
      String.toList_append, List.append_assoc]
    rfl
  | lambda name body ih =>
    rw [tree, chars_paren (chars_nameLambda ih name), render]
    simp only [String.append_assoc]
  | patternLambda first second body ih =>
    rw [tree, chars_paren (chars_patternLambda ih first second), render]
    simp only [String.toList_append, List.append_assoc]
    rfl
  | withIn source body ihs ihb =>
    simp only [tree, Tree.leaves_withIn, render, chars_cons, chars_append, ihs, ihb,
      String.toList_append, List.append_assoc]
    rfl
  | recSet name value other ih =>
    simp only [tree, Tree.leaves_recSet, leaves_attribute, render, chars_cons, chars_append, ih,
      String.toList_append, List.append_assoc]
    rfl
  | apply function argument ihf iha =>
    simp only [tree, Tree.leaves_apply, render, chars_cons, chars_append, ihf, iha,
      String.toList_append, List.append_assoc]
    rfl
  | fallback head first names default ih =>
    rw [tree, chars_paren (chars_fallback ih head first names), render]
    simp only [String.toList_append, List.append_assoc]
    rfl
  | list items ih =>
    rw [tree, Tree.leaves_list, chars_cons, chars_append, chars_items items ih, render]
    cases items with
    | nil => rfl
    | cons item items =>
      rw [renderAll, ← toList_intercalate, treeAll, if_neg (List.cons_ne_nil _ _)]
      simp only [String.toList_append, List.append_assoc]
      rfl

theorem width_of_chars {t : Tree} {text : String} (h : chars t.leaves = text.toList) :
    t.width = text.utf8ByteSize := by
  have hj : String.join (t.leaves.map Token.text) = text := by
    rw [← String.toList_inj, String.toList_join, List.flatMap_map]
    exact h
  rw [Tree.width, widthOf_eq, hj]

theorem width_tree (t : Term) : t.tree.width = t.render.utf8ByteSize :=
  width_of_chars (chars_tree t)

/-- The text of a term that does not nest too deeply is read as the tree of the term. -/
theorem parse_term (t : Term) (h : t.depth ≤ 100) : parse t.render = ⟨[t.tree], []⟩ := by
  have hd : Grammar.maxDepth = 512 := rfl
  have hr := rebuilds_tree t (l := Grammar.maxDepth) blank_nil (by omega)
  rw [List.map_nil, List.nil_append] at hr
  have hw : Written t.tree.leaves [] := written_tree t rfl
  exact Parse.parse_of_rebuilds hw.lexes (chars_tree t).symm hr

end

end Term

end NixScope
