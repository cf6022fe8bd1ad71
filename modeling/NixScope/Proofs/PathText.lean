import NixScope.Proofs.Layout
import NixScope.Proofs.Rebuilds

namespace NixScope

open Syntax Node

namespace AttributePath

def content (first : String) (rest : List String) : List Tree :=
  Attribute.tree first :: Grammar.dotted (rest.map Attribute.tree)

def selection (head first : String) (rest : List String) (tail : List Tree) : List Tree :=
  .branch .var [.leaf (Token.word head)] :: .leaf Token.dot ::
    .branch .attrPath (content first rest) :: tail

structure Names (n : Node) (name : String) : Prop where
  kind : n.kind = .attr
  name : Attribute.ofNode n = .static name
  under : Usage.under n = []

section

variable (above : List Spot) (start index : Nat)

theorem names_laid (name : String) :
    Names (laid above start index .attr (Attribute.content name)) name :=
  ⟨rfl, Attribute.ofNode_laid .., Attribute.under_laid ..⟩

theorem dotted_laid (names : List String) :
    List.Forall₂ Names ((laidAll above start index
      (Grammar.dotted (names.map Attribute.tree))).filterMap Element.node?) names := by
  induction names generalizing start index with
  | nil => exact .nil
  | cons name names ih => exact .cons (names_laid ..) (ih ..)

theorem content_laid (first : String) (rest : List String) :
    List.Forall₂ Names (laid above start index .attrPath (content first rest)).nodes
      (first :: rest) := by
  rw [nodes_laid]
  exact .cons (names_laid ..) (dotted_laid ..)

end

variable {ns : List Node} {names : List String} (h : List.Forall₂ Names ns names)

include h

theorem filter_of_names : ns.filter (·.kind == .attr) = ns := by
  induction h with
  | nil => rfl
  | cons hn _ ih => simp [hn.kind, ih]

theorem map_of_names : ns.map Attribute.ofNode = names.map .static := by
  induction h with
  | nil => rfl
  | cons hn _ ih => rw [List.map_cons, List.map_cons, hn.name, ih]

theorem under_of_names : ns.flatMap Usage.under = [] := by
  induction h with
  | nil => rfl
  | cons hn _ ih => rw [List.flatMap_cons, hn.under, ih, List.nil_append]

omit h

section

variable (above : List Spot) (start index : Nat) (head first : String) (rest : List String)
  (tail : List Tree)

theorem attrs_laid :
    ∃ a as, AttrPath.attrs (laid above start index .attrPath (content first rest)) = a :: as ∧
      (a :: as).map Attribute.ofNode = (first :: rest).map .static := by
  have h := content_laid above start index first rest
  rw [AttrPath.attrs, childrenOf, filter_of_names h]
  cases hn : (laid above start index .attrPath (content first rest)).nodes with
  | nil =>
    rw [hn] at h
    cases h
  | cons a as => exact ⟨a, as, rfl, map_of_names (hn ▸ h)⟩

theorem under_path : Usage.under (laid above start index .attrPath (content first rest)) = [] := by
  rw [Usage.under_of_not_isUsage rfl, under_of_names (content_laid ..)]

theorem name?_laid {kind : Kind} (hh : Scan.keyword? head.toList = none) :
    Var.name? (laid above start index kind [.leaf (Token.word head)]) = some head := by
  simp [Var.name?, token?, leaves, elements_laid, laidAll, Leaf.kind, Leaf.text, Token.word, hh]

/-- A selection from a variable is a usage of the variable along the path. The only other usages in
it are in the default. -/
theorem under_selection (hh : Scan.keyword? head.toList = none) :
    ∃ u, u.element = laid above start index .select (selection head first rest tail) ∧
      u.path = ⟨.static head, (first :: rest).map .static⟩ ∧
      Usage.within above start index (.branch .select (selection head first rest tail)) =
        u :: Usage.withinAll (u.element.toSpot :: above)
          (start + Tree.widthOf (selection head first rest [])) 3 tail := by
  have hs : selection head first rest tail = selection head first rest [] ++ tail := rfl
  have he := elements_laid above start index .select (selection head first rest tail)
  rw [hs, laidAll_append] at he
  obtain ⟨a, as, hattrs, hnames⟩ := attrs_laid
    ((laid above start index .select (selection head first rest tail)).toSpot :: above)
    (start + Tree.widthOf [.leaf (Token.word head)] + Token.dot.width) 2 first rest
  have hu := Usage.under_select rfl he rfl rfl (name?_laid _ _ _ _ hh) rfl rfl hattrs
    (under_path ..)
  have ht := Usage.flatMap_laidAll
    ((laid above start index .select (selection head first rest tail)).toSpot :: above)
    (start + Tree.widthOf (selection head first rest [])) 3 tail
  refine ⟨⟨_, ⟨.static head, _⟩, (a :: as).map .ofAttr⟩, rfl, ?_, ht ▸ hu⟩
  rw [Usage.path, List.map_map, ← hnames]
  rfl

end

end AttributePath

namespace Attribute

variable (name : String) {rest : List Char}

theorem leaves_tree : ((tree name).leaves = [Token.word name] ∧ Scan.isWord name.toList = true) ∨
    (tree name).leaves = Token.quoted name.toList := by
  obtain ⟨hc, hw, -⟩ | hc := content_cases name
  · refine .inl ⟨?_, hw⟩
    rw [tree, hc]
    rfl
  · refine .inr ?_
    rw [tree, hc, Rose.leaves, Rose.leavesOf, Rose.leaves, Tree.leavesOf_map_leaf]
    exact List.append_nil _

theorem chars_tree : Token.chars (tree name).leaves = (static name).render.toList := by
  rw [render, tree, content]
  split
  · simp [Rose.leaves, Rose.leavesOf, Token.chars, Token.word]
  · simp [Rose.leaves, Rose.leavesOf, Token.chars_quoted]

theorem calm_tree (h : Scan.Calm rest) : Scan.Calm (Token.chars (tree name).leaves ++ rest) := by
  obtain ⟨ht, hw⟩ | ht := leaves_tree name
  · rw [ht]
    have hc : Token.chars [Token.word name] = name.toList := List.append_nil _
    rw [hc]
    exact h.word hw
  · rw [ht, Token.chars_quoted]
    exact Scan.calm_of_stop (by decide) (by decide) (by decide)

theorem head?_tree : (Token.chars (tree name).leaves ++ rest).head? ≠ some '.' := by
  obtain ⟨ht, hw⟩ | ht := leaves_tree name
  · have hc : Token.chars [Token.word name] = name.toList := List.append_nil _
    rw [ht, hc]
    cases hn : name.toList with
    | nil => simp [hn, Scan.isWord] at hw
    | cons c cs =>
      rw [hn] at hw
      rintro ⟨⟩
      have hr := Scan.isIdentRest_of_isWord hw '.' List.mem_cons_self
      revert hr
      decide
  · rw [ht, Token.chars_quoted]
    simp

theorem lexes_tree (h : Scan.Clear rest) : Token.Lexes (tree name).leaves rest := by
  obtain ⟨ht, hw⟩ | ht := leaves_tree name
  · rw [ht]
    exact Token.lexes_word hw h
  · rw [ht]
    exact Token.lexes_quoted ..

theorem attrTree_tree : Grammar.AttrTree (tree name) := by
  obtain ⟨hc, -, hk⟩ | hc := content_cases name
  · rw [tree, hc]
    exact .word hk
  · rw [tree, hc]
    exact .quoted _

end Attribute

namespace AttributePath

open Token Grammar

theorem leavesOf_dotted_cons (name : String) (names : List String) :
    Rose.leavesOf (dotted ((name :: names).map Attribute.tree)) =
      dot :: ((Attribute.tree name).leaves ++
        Rose.leavesOf (dotted (names.map Attribute.tree))) := rfl

variable {rest : List Char}

theorem clear_dotted (names : List String) (h : Scan.Clear rest) :
    Scan.Clear (chars (Rose.leavesOf (dotted (names.map Attribute.tree))) ++ rest) := by
  induction names with
  | nil => exact h
  | cons name names ih =>
    rw [leavesOf_dotted_cons, chars_cons, chars_append, List.append_assoc, List.append_assoc]
    exact Scan.clear_dot (Attribute.calm_tree name ih.calm)

theorem lexes_dotted (names : List String) (h : Scan.Clear rest) :
    Lexes (Rose.leavesOf (dotted (names.map Attribute.tree))) rest := by
  induction names with
  | nil => exact lexes_nil rest
  | cons name names ih =>
    have hclear := clear_dotted names h
    rw [leavesOf_dotted_cons]
    refine (lexes_dot ?_ ?_).cons ((Attribute.lexes_tree name hclear).append ih)
    · rw [chars_append, List.append_assoc]
      exact Attribute.calm_tree name hclear.calm
    · rw [chars_append, List.append_assoc]
      exact Attribute.head?_tree name

theorem leavesOf_selection (head first : String) (names : List String) (tail : List Tree) :
    Rose.leavesOf (selection head first names tail) =
      word head :: (Rose.leavesOf (dotted ((first :: names).map Attribute.tree)) ++
        Rose.leavesOf tail) := by
  rw [leavesOf_dotted_cons]
  simp [selection, content, Rose.leavesOf, Rose.leaves]

theorem written_selection {head : String} (first : String) (names : List String)
    (hh : Scan.isWord head.toList = true) (h : Scan.Clear rest) :
    Written (Rose.leavesOf (selection head first names [])) rest := by
  have hclear := clear_dotted (first :: names) h
  have hpath : Written (Rose.leavesOf (dotted ((first :: names).map Attribute.tree))) rest :=
    ⟨lexes_dotted (first :: names) h, hclear.calm⟩
  rw [leavesOf_selection, Rose.leavesOf, List.append_nil]
  exact hpath.word hh hclear.word

section

variable {l : Nat} {ws : List Token} {head : String} (hh : Scan.keyword? head.toList = none)
  (first : String) (names : List String) {tail : List Tree}

include hh

theorem kind_word : (word head).kind = .ident := by
  rw [word, hh]
  rfl

theorem opening_selection :
    Tree.opening [.branch .select (selection head first names tail)] = some .ident := by
  rw [← kind_word hh]
  rfl

theorem rebuilds_selection {ok : List Token → Prop} (hw : Blank ws)
    (htail : (Rule.when .orKw (.seq [.token, select (nested (l + 1))])).Rebuilds tail ok)
    (hok : ∀ rest, ok rest → Place.aheadIn (Rose.leavesOf tail ++ rest) 0 ≠ some .dot) :
    (select (nested (l + 1))).Rebuilds
      (ws.map .leaf ++ [.branch .select (selection head first names tail)]) ok := by
  have ho : Tree.opening [.branch .var [.leaf (word head)]] = some .ident := by
    rw [← kind_word hh]
    rfl
  refine rebuilds_select_path hw ho rfl (rebuilds_var Token.blank_nil (kind_word hh))
    (Attribute.attrTree_tree first) ?_ htail hok
  intro a ha
  obtain ⟨name, -, rfl⟩ := List.mem_map.mp ha
  exact Attribute.attrTree_tree name

/-- A selection is an expression: the dot behind the variable tells it from a lambda. -/
theorem rebuilds_expr_selection (hw : Blank ws)
    (htail : (Rule.when .orKw (.seq [.token, select (nested (l + 1))])).Rebuilds tail Ended)
    (hok : ∀ rest, Ended rest → Place.aheadIn (Rose.leavesOf tail ++ rest) 0 ≠ some .dot) :
    (nested (l + 2) .expr).Rebuilds
      (ws.map .leaf ++ [.branch .select (selection head first names tail)]) Ended := by
  have hs := rebuilds_selection hh first names Token.blank_nil htail hok
  refine rebuilds_expr_select hw (opening_selection hh first names) rfl hs (fun _ hr => hr) ?_
  intro rest offset _
  refine lambdaAhead_of_ident (kind_word hh) ?_ ?_ offset
  · exact nofun
  · exact nofun

theorem rebuilds_expr_path (hw : Blank ws) :
    (nested (l + 2) .expr).Rebuilds
      (ws.map .leaf ++ [.branch .select (selection head first names [])]) Ended :=
  rebuilds_expr_selection hh first names hw
    ((Rule.rebuilds_when_neg _ _).mono fun _ hr => hr.ne rfl) fun _ hr => hr.ne rfl

end

def ofNames (first : String) (rest : List String) : AttributePath :=
  ⟨.static first, rest.map .static⟩

theorem exists_ofNames {p : AttributePath} (h : p.toList.any Attribute.isDynamic = false) :
    ∃ first rest, p = ofNames first rest := by
  have hname : ∀ a : Attribute, a.isDynamic = false → ∃ name, a = .static name := by
    intro a ha
    cases a with
    | static name => exact ⟨name, rfl⟩
    | dynamic n => cases ha
  have hnames : ∀ as : List Attribute, as.any Attribute.isDynamic = false →
      ∃ names : List String, as = names.map .static := by
    intro as has
    induction as with
    | nil => exact ⟨[], rfl⟩
    | cons a as ih =>
      rw [List.any_cons, Bool.or_eq_false_iff] at has
      obtain ⟨name, rfl⟩ := hname a has.1
      obtain ⟨names, rfl⟩ := ih has.2
      exact ⟨name :: names, rfl⟩
  obtain ⟨a, as⟩ := p
  rw [toList, List.any_cons, Bool.or_eq_false_iff] at h
  obtain ⟨first, rfl⟩ := hname a h.1
  obtain ⟨rest, rfl⟩ := hnames as h.2
  exact ⟨first, rest, rfl⟩

variable (first : String) (names : List String)

theorem chars_dotted : '.' :: (ofNames first names).render.toList =
    chars (Rose.leavesOf (dotted ((first :: names).map Attribute.tree))) := by
  induction names generalizing first with
  | nil =>
    rw [leavesOf_dotted_cons, chars_cons, chars_append, Attribute.chars_tree]
    simp [render, ofNames, toList, dot, dotted, Rose.leavesOf, chars]
  | cons name names ih =>
    rw [leavesOf_dotted_cons, chars_cons, chars_append, ← ih, Attribute.chars_tree]
    simp [render, ofNames, toList, String.intercalate_cons_cons, dot]

theorem toList_render : ("x." ++ (ofNames first names).render).toList =
    chars (Rose.leaves (.branch .select (selection "x" first names []))) := by
  rw [Rose.leaves, leavesOf_selection, Rose.leavesOf, List.append_nil, chars_cons, ← chars_dotted,
    String.toList_append]
  rfl

theorem parse_ofNames : parse ("x." ++ (ofNames first names).render) =
    ⟨[.branch .select (selection "x" first names [])], []⟩ := by
  refine Parse.parse_of_rebuilds ?_ (toList_render first names) ?_
  · exact (written_selection first names rfl Scan.clear_nil).lexes
  · have hx : Scan.keyword? "x".toList = none := by decide
    have h := rebuilds_expr_path (l := 510) hx first names Token.blank_nil
    rw [List.map_nil, List.nil_append] at h
    exact h

theorem under_ofNames :
    (Usage.under (parse ("x." ++ (ofNames first names).render)).root).map Usage.path =
      [⟨.static "x", (first :: names).map .static⟩] := by
  obtain ⟨u, he, hp, hu⟩ := under_selection [(root .root
    [.branch .select (selection "x" first names [])]).toSpot] 0 0 "x" first names [] rfl
  rw [Parse.root, parse_ofNames, Usage.under_root, hu]
  exact congrArg (· :: []) hp

/-- A path of names that is written behind a variable and a dot is read without a problem, as a
single usage of the variable along exactly these names. So paths that are written the same are the
same. -/
theorem parse_render :
    (∀ names : List String, names ≠ [] → ∃ path, ofNames? names = some path ∧
      (parse ("x." ++ path.render)).errors = [] ∧
      (Usage.under (parse ("x." ++ path.render)).root).map Usage.path =
        [⟨.static "x", names.map .static⟩]) ∧
    ∀ p q : AttributePath, p.toList.any Attribute.isDynamic = false →
      q.toList.any Attribute.isDynamic = false → p.render = q.render → p = q := by
  constructor
  · intro names hn
    cases names with
    | nil => exact absurd rfl hn
    | cons first names =>
      refine ⟨ofNames first names, rfl, ?_, under_ofNames first names⟩
      rw [parse_ofNames]
  · intro p q hp hq h
    obtain ⟨first, names, rfl⟩ := exists_ofNames hp
    obtain ⟨first', names', rfl⟩ := exists_ofNames hq
    have hu := under_ofNames first names
    rw [h, under_ofNames] at hu
    have hs : (first' :: names').map Attribute.static = (first :: names).map Attribute.static :=
      congrArg AttributePath.rest (List.cons.inj hu).1
    rw [List.map_cons, List.map_cons, List.cons.injEq] at hs
    rw [ofNames, ofNames, hs.1, hs.2]

theorem parse_render_quoted : ∃ path, ofNames? ["or", "if", "a\"$\x7bb", ""] = some path ∧
    (parse ("x." ++ path.render)).errors = [] ∧
    (Usage.under (parse ("x." ++ path.render)).root).map Usage.path =
      [⟨.static "x", ["or", "if", "a\"$\x7bb", ""].map .static⟩] :=
  parse_render.1 _ (by decide)

end AttributePath

end NixScope
