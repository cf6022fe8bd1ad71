import NixScope.Proofs.Elements
import NixScope.Proofs.Forms
import NixScope.Proofs.Lossless

namespace NixScope.Syntax

namespace Element

theorem fits_cases {e : Element} {parts : List Part} (h : parts.any (·.fits e.tree) = true) :
    (∃ l, e = .leaf l ∧ .token l.kind ∈ parts) ∨
      ∃ n, e = .node n ∧ (.node n.kind ∈ parts ∨ .expr ∈ parts ∧ n.kind.isExpr = true) := by
  obtain ⟨part, hm, hf⟩ := List.any_eq_true.mp h
  cases e with
  | leaf l =>
    left
    cases part with
    | token k =>
      have hk : l.kind = k := by simpa [Part.fits, tree, Leaf.kind] using hf
      exact ⟨l, rfl, hk ▸ hm⟩
    | node k => cases hf
    | expr => cases hf
  | node n =>
    right
    rw [tree, Spot.tree_eq] at hf
    cases part with
    | token k => cases hf
    | node k =>
      have hk : n.kind = k := by simpa [Part.fits] using hf
      exact ⟨n, rfl, .inl (hk ▸ hm)⟩
    | expr => exact ⟨n, rfl, .inr ⟨hm, hf⟩⟩

end Element

namespace Form

variable {form : Form} {es : List Element}

theorem Fits.one_elements {parts : List Part} (h : Fits (.one parts :: form) (es.map Element.tree)) :
    ∃ e es', es = e :: es' ∧ parts.any (·.fits e.tree) = true ∧
      Fits form (es'.map Element.tree) := by
  generalize ht : es.map Element.tree = ts at h
  cases h with
  | one h hs =>
    obtain ⟨e, es', rfl, rfl, rfl⟩ := List.map_eq_cons_iff.mp ht
    exact ⟨e, es', rfl, h, hs⟩

theorem Fits.nil_elements (h : Fits [] (es.map Element.tree)) : es = [] := by
  generalize ht : es.map Element.tree = ts at h
  cases h
  exact List.map_eq_nil_iff.mp ht

theorem Fits.expr_elements (h : Fits (.expr :: form) (es.map Element.tree)) :
    ∃ n es', es = .node n :: es' ∧ n.kind.isExpr = true ∧ Fits form (es'.map Element.tree) := by
  obtain ⟨e, es', rfl, he, hs⟩ := h.one_elements
  obtain ⟨l, -, hl⟩ | ⟨n, rfl, hn⟩ := Element.fits_cases he
  · simp at hl
  · exact ⟨n, es', rfl, by simpa using hn, hs⟩

theorem Fits.node_elements {k : Kind} (h : Fits (.node k :: form) (es.map Element.tree)) :
    ∃ n es', es = .node n :: es' ∧ n.kind = k ∧ Fits form (es'.map Element.tree) := by
  obtain ⟨e, es', rfl, he, hs⟩ := h.one_elements
  obtain ⟨l, -, hl⟩ | ⟨n, rfl, hn⟩ := Element.fits_cases he
  · simp at hl
  · exact ⟨n, es', rfl, by simpa using hn, hs⟩

theorem Fits.token_elements {k : Kind} (h : Fits (.token k :: form) (es.map Element.tree)) :
    ∃ l es', es = .leaf l :: es' ∧ l.kind = k ∧ Fits form (es'.map Element.tree) := by
  obtain ⟨e, es', rfl, he, hs⟩ := h.one_elements
  obtain ⟨l, rfl, hl⟩ | ⟨n, -, hn⟩ := Element.fits_cases he
  · exact ⟨l, es', rfl, by simpa using hl, hs⟩
  · simp at hn

theorem Fits.many_elements {parts : List Part}
    (h : Fits (.many parts :: form) (es.map Element.tree)) :
    ∃ as bs, es = as ++ bs ∧ (∀ e ∈ as, parts.any (·.fits e.tree) = true) ∧
      Fits form (bs.map Element.tree) := by
  generalize ht : es.map Element.tree = ts at h
  generalize hf : Slot.many parts :: form = f at h
  induction h generalizing es with
  | nil => cases hf
  | one h hs ih => cases hf
  | stop hs ih =>
    cases hf
    exact ⟨[], es, rfl, by simp, ht ▸ hs⟩
  | more h hs ih =>
    cases hf
    obtain ⟨e, es', rfl, rfl, rfl⟩ := List.map_eq_cons_iff.mp ht
    obtain ⟨as, bs, rfl, has, hbs⟩ := ih rfl rfl
    exact ⟨e :: as, bs, rfl, by simpa using ⟨by simpa using h, by simpa using has⟩, hbs⟩

def slotParts : Slot → List Part
  | .one parts => parts
  | .many parts => parts

theorem Fits.mem {ts : List Tree} (h : Fits form ts) {t : Tree} (ht : t ∈ ts) :
    ∃ slot ∈ form, (slotParts slot).any (·.fits t) = true := by
  induction h with
  | nil => cases ht
  | one h hs ih =>
    obtain rfl | ht := List.mem_cons.mp ht
    · exact ⟨_, List.mem_cons_self, h⟩
    · obtain ⟨slot, hm, hf⟩ := ih ht
      exact ⟨slot, List.mem_cons_of_mem _ hm, hf⟩
  | stop hs ih =>
    obtain ⟨slot, hm, hf⟩ := ih ht
    exact ⟨slot, List.mem_cons_of_mem _ hm, hf⟩
  | more h hs ih =>
    obtain rfl | ht := List.mem_cons.mp ht
    · exact ⟨_, List.mem_cons_self, h⟩
    · exact ih ht

end Form

namespace Kind

def parts (k : Kind) : List Part := k.forms.flatMap fun form => form.flatMap Form.slotParts

theorem token_error_not_mem_parts (k : Kind) : .token error ∉ k.parts := by
  cases k <;> decide

theorem eq_inherit_of_mem_parts {k : Kind} (h : .node inheritedName ∈ k.parts) : k = inherit := by
  cases k <;> first | rfl | exact absurd h (by decide)

end Kind

theorem Tree.Formed.mem_parts {kind : Kind} {ts : List Tree} (h : Formed kind ts) {t : Tree}
    (ht : t ∈ solid ts) : kind.parts.any (·.fits t) = true := by
  obtain ⟨form, hm, hf⟩ := h
  obtain ⟨slot, hs, ht⟩ := hf.mem ht
  obtain ⟨part, hp, ht⟩ := List.any_eq_true.mp ht
  refine List.any_eq_true.mpr ⟨part, ?_, ht⟩
  exact List.mem_flatMap.mpr ⟨form, hm, List.mem_flatMap.mpr ⟨slot, hs, hp⟩⟩

namespace Node

/-- The node has every part that its kind asks for, and its expressions are different children. -/
structure Complete (n : Node) : Prop where
  name : n.kind = .var ∨ n.kind = .paramName → (Var.name? n).isSome = true
  literal : n.kind = .literal → n.solidToken?.isSome = true
  attr : n.kind = .attr → (Attr.spelling? n).isSome = true
  enclosed : n.kind ∈ [.dynamic, .interpolation, .inheritFrom, .paren] → n.expr?.isSome = true
  select : n.kind = .select → ∃ b p, Select.base? n = some b ∧ Select.path? n = some p ∧
    AttrPath.attrs p ≠ [] ∧ (Select.fallback? n).isSome = (n.token? .orKw).isSome ∧
    Select.fallback? n ≠ some b
  hasAttr : n.kind = .hasAttr → (HasAttr.base? n).isSome = true ∧ (HasAttr.path? n).isSome = true
  letIn : n.kind = .letIn → (LetIn.body? n).isSome = true
  attrPathValue : n.kind = .attrPathValue →
    (AttrPathValue.path? n).isSome = true ∧ (AttrPathValue.value? n).isSome = true
  inheritedName : n.kind = .inheritedName →
    (InheritedName.attr? n).isSome = true ∧ (InheritedName.inherit? n).isSome = true
  lambda : n.kind = .lambda → (Lambda.param? n).isSome = true ∧ (Lambda.body? n).isSome = true
  pattern : n.kind = .patternEntry ∨ n.kind = .patternBind → (Pattern.name? n).isSome = true
  withIn : n.kind = .withIn →
    ∃ s b, WithIn.source? n = some s ∧ WithIn.body? n = some b ∧ s ≠ b
  assert : n.kind = .assert →
    ∃ c b, Assert.condition? n = some c ∧ Assert.body? n = some b ∧ c ≠ b
  ifElse : n.kind = .ifElse → ∃ c t e, IfElse.condition? n = some c ∧
    IfElse.thenBranch? n = some t ∧ IfElse.elseBranch? n = some e ∧ c ≠ t ∧ c ≠ e ∧ t ≠ e
  apply : n.kind = .apply →
    ∃ f a, Apply.function? n = some f ∧ Apply.argument? n = some a ∧ f ≠ a
  binaryOp : n.kind = .binaryOp → ∃ l o r, BinaryOp.left? n = some l ∧
    BinaryOp.operator? n = some o ∧ BinaryOp.right? n = some r ∧ l ≠ r
  unaryOp : n.kind = .unaryOp → (UnaryOp.operand? n).isSome = true

end Node

def Node.Formed (n : Node) : Prop :=
  ∃ form ∈ n.kind.forms, Form.Fits form (n.solids.map Element.tree)

namespace Node

theorem formed_iff {n : Node} : n.Formed ↔ Tree.Formed n.kind n.trees := by
  rw [Formed, tree_solids]
  rfl

section

variable {n : Node}

theorem Formed.fits {form : Form} (h : n.Formed) (hf : n.kind.forms = [form]) :
    form.Fits (n.solids.map Element.tree) := by
  obtain ⟨form', hm, hs⟩ := h
  rw [hf, List.mem_singleton] at hm
  exact hm ▸ hs

variable (h : n.Formed)

include h

theorem Formed.name (hk : n.kind = .var ∨ n.kind = .paramName) :
    (Var.name? n).isSome = true := by
  have hf : n.kind.forms = [[.token .ident]] := by
    obtain hk | hk := hk <;> rw [hk] <;> rfl
  obtain ⟨l, es, hs, hl, -⟩ := (h.fits hf).token_elements
  rw [Var.name?, token?_eq_solids n rfl, hs]
  simp [hl]

theorem Formed.literal (hk : n.kind = .literal) : n.solidToken?.isSome = true := by
  have hf := h.fits (by rw [hk]; rfl)
  obtain ⟨e, es, hs, he, -⟩ := hf.one_elements
  obtain ⟨l, rfl, hl⟩ | ⟨m, -, hm⟩ := Element.fits_cases he
  · have ht : l.kind.isTrivia = false := by
      simp only [List.mem_cons, Part.token.injEq, List.not_mem_nil, or_false] at hl
      obtain hl | hl | hl | hl | hl := hl <;> rw [hl] <;> rfl
    rw [solidToken?_eq_solids, hs]
    simp [ht]
  · simp at hm

theorem Formed.attr (hk : n.kind = .attr) : (Attr.spelling? n).isSome = true := by
  obtain ⟨form, hm, hf⟩ := h
  rw [spelling?_eq_solids]
  simp only [hk, Kind.forms, List.mem_cons, List.not_mem_nil, or_false] at hm
  obtain rfl | rfl | rfl | rfl := hm
  · obtain ⟨l, es, hs, hl, -⟩ := hf.token_elements
    simp [hs, Attr.spellingOf?, hl]
  · obtain ⟨l, es, hs, hl, -⟩ := hf.token_elements
    simp [hs, Attr.spellingOf?, hl]
  · obtain ⟨s, es, hs, hl, -⟩ := hf.node_elements
    simp [hs, Attr.spellingOf?, hl]
  · obtain ⟨d, es, hs, hl, -⟩ := hf.node_elements
    simp [hs, Attr.spellingOf?, hl]

theorem Formed.enclosed (hk : n.kind ∈ [.dynamic, .interpolation, .inheritFrom, .paren]) :
    n.expr?.isSome = true := by
  have hf : ∃ o c, n.kind.forms = [[.token o, .expr, .token c]] := by
    simp only [List.mem_cons, List.not_mem_nil, or_false] at hk
    obtain hk | hk | hk | hk := hk <;> rw [hk] <;> exact ⟨_, _, rfl⟩
  obtain ⟨o, c, hf⟩ := hf
  obtain ⟨l, es, hs, -, hf⟩ := (h.fits hf).token_elements
  obtain ⟨e, es, rfl, he, -⟩ := hf.expr_elements
  rw [expr?_eq_solids, hs]
  simp [Element.expr?_node he]

theorem Formed.attrs (hk : n.kind = .attrPath) : AttrPath.attrs n ≠ [] := by
  obtain ⟨a, es, hs, ha, -⟩ := (h.fits (by rw [hk]; rfl)).node_elements
  rw [AttrPath.attrs, childrenOf, nodes_eq_solids, hs]
  simp [ha]

theorem Formed.hasAttr (hk : n.kind = .hasAttr) :
    (HasAttr.base? n).isSome = true ∧ (HasAttr.path? n).isSome = true := by
  obtain ⟨b, es, hs, hb, hf⟩ := (h.fits (by rw [hk]; rfl)).expr_elements
  obtain ⟨o, es, rfl, -, hf⟩ := hf.token_elements
  obtain ⟨p, es, rfl, hp, -⟩ := hf.node_elements
  constructor
  · rw [HasAttr.base?, expr?_eq_solids, hs]
    simp [Element.expr?_node hb]
  · have hn : b.kind ≠ .attrPath := by
      intro hn
      simp [hn, Kind.isExpr] at hb
    rw [HasAttr.path?, child?, nodes_eq_solids, hs]
    simp [hp]

theorem Formed.letIn (hk : n.kind = .letIn) : (LetIn.body? n).isSome = true := by
  obtain ⟨l, es, hs, hl, hf⟩ := (h.fits (by rw [hk]; rfl)).token_elements
  obtain ⟨as, es, rfl, has, hf⟩ := hf.many_elements
  obtain ⟨i, es, rfl, hi, hf⟩ := hf.token_elements
  obtain ⟨b, es, rfl, hb, -⟩ := hf.expr_elements
  have hbefore : ∀ e ∈ as, (e.kind != .inKw) = true := by
    intro e he
    obtain ⟨l, -, hl⟩ | ⟨m, rfl, hm⟩ := Element.fits_cases (has e he)
    · simp at hl
    · have hm : m.kind = .attrPathValue ∨ m.kind = .inherit := by simpa using hm
      obtain hm | hm := hm <;> simp [hm]
  rw [LetIn.body?, exprAfter?_eq_solids n rfl, hs, List.dropWhile_cons_of_pos (by simp [hl]),
    List.dropWhile_append_of_pos hbefore]
  simp [hi, Element.expr?_node hb]

theorem Formed.attrPathValue (hk : n.kind = .attrPathValue) :
    (AttrPathValue.path? n).isSome = true ∧ (AttrPathValue.value? n).isSome = true := by
  obtain ⟨p, es, hs, hp, hf⟩ := (h.fits (by rw [hk]; rfl)).node_elements
  obtain ⟨a, es, rfl, ha, hf⟩ := hf.token_elements
  obtain ⟨v, es, rfl, hv, -⟩ := hf.expr_elements
  constructor
  · rw [AttrPathValue.path?, child?, nodes_eq_solids, hs]
    simp [hp]
  · rw [AttrPathValue.value?, exprAfter?_eq_solids n rfl, hs]
    simp [hp, ha, Element.expr?_node hv]

theorem Formed.inheritedName (hk : n.kind = .inheritedName) :
    (InheritedName.attr? n).isSome = true := by
  obtain ⟨a, es, hs, ha, -⟩ := (h.fits (by rw [hk]; rfl)).node_elements
  rw [InheritedName.attr?, child?, nodes_eq_solids, hs]
  simp [ha]

theorem Formed.lambda (hk : n.kind = .lambda) :
    (Lambda.param? n).isSome = true ∧ (Lambda.body? n).isSome = true := by
  have hf : ∃ k, (k = .paramName ∨ k = .pattern) ∧
      Form.Fits [.node k, .token .colon, .expr] (n.solids.map Element.tree) := by
    obtain ⟨form, hm, hf⟩ := h
    simp only [hk, Kind.forms, List.mem_cons, List.not_mem_nil, or_false] at hm
    obtain rfl | rfl := hm
    · exact ⟨_, .inl rfl, hf⟩
    · exact ⟨_, .inr rfl, hf⟩
  obtain ⟨k, hk, hf⟩ := hf
  obtain ⟨p, es, hs, hp, hf⟩ := hf.node_elements
  rw [← hp] at hk
  obtain ⟨c, es, rfl, hc, hf⟩ := hf.token_elements
  obtain ⟨b, es, rfl, hb, -⟩ := hf.expr_elements
  have hn : p.kind ≠ .colon := by
    obtain hk | hk := hk <;> simp [hk]
  constructor
  · rw [Lambda.param?, nodes_eq_solids, hs]
    simp [hk]
  · have he : n.exprAfter? .colon = some b := by
      rw [exprAfter?_eq_solids n rfl, hs]
      simp [List.dropWhile_cons, List.findSome?_cons, hn, hc, Element.expr?_node hb]
    rw [Lambda.body?, he]
    rfl

theorem Formed.pattern (hk : n.kind = .patternEntry ∨ n.kind = .patternBind) :
    (Pattern.name? n).isSome = true := by
  have hm : ∃ p, .node p ∈ n.solids ∧ p.kind = .paramName := by
    obtain ⟨form, hm, hf⟩ := h
    obtain hk | hk := hk
    · simp only [hk, Kind.forms, List.mem_cons, List.not_mem_nil, or_false] at hm
      obtain rfl | rfl := hm
      · obtain ⟨p, es, hs, hp, -⟩ := hf.node_elements
        exact ⟨p, by simp [hs], hp⟩
      · obtain ⟨p, es, hs, hp, -⟩ := hf.node_elements
        exact ⟨p, by simp [hs], hp⟩
    · simp only [hk, Kind.forms, List.mem_cons, List.not_mem_nil, or_false] at hm
      obtain rfl | rfl := hm
      · obtain ⟨p, es, hs, hp, -⟩ := hf.node_elements
        exact ⟨p, by simp [hs], hp⟩
      · obtain ⟨o, es, hs, -, hf⟩ := hf.token_elements
        obtain ⟨p, es, rfl, hp, -⟩ := hf.node_elements
        exact ⟨p, by simp [hs], hp⟩
  obtain ⟨p, hm, hp⟩ := hm
  rw [Pattern.name?, child?, nodes_eq_solids, List.find?_isSome]
  exact ⟨p, List.mem_filterMap.mpr ⟨_, hm, rfl⟩, by simp [hp]⟩

theorem Formed.unaryOp (hk : n.kind = .unaryOp) : (UnaryOp.operand? n).isSome = true := by
  obtain ⟨o, es, hs, -, hf⟩ := (h.fits (by rw [hk]; rfl)).one_elements
  obtain ⟨t, es, rfl, ht, -⟩ := hf.expr_elements
  rw [UnaryOp.operand?, expr?_eq_solids, hs, List.findSome?_cons]
  split
  · rfl
  · simp [Element.expr?_node ht]

variable (hd : n.nodes.Nodup)

include hd

theorem Formed.statement (hk : n.kind = .withIn ∨ n.kind = .assert) :
    ∃ a b, n.exprBefore? .semicolon = some a ∧ n.exprAfter? .semicolon = some b ∧ a ≠ b := by
  have hf : ∃ k, k ≠ .semicolon ∧ n.kind.forms = [[.token k, .expr, .token .semicolon, .expr]] := by
    obtain hk | hk := hk <;> rw [hk]
    · exact ⟨.withKw, by decide, rfl⟩
    · exact ⟨.assertKw, by decide, rfl⟩
  obtain ⟨k, hk, hf⟩ := hf
  obtain ⟨o, es, hs, ho, hf⟩ := (h.fits hf).token_elements
  obtain ⟨a, es, rfl, ha, hf⟩ := hf.expr_elements
  obtain ⟨m, es, rfl, hm, hf⟩ := hf.token_elements
  obtain ⟨b, es, rfl, hb, hf⟩ := hf.expr_elements
  have hn : a.kind ≠ .semicolon := by
    intro hn
    simp [hn, Kind.isExpr] at ha
  have hns : n.nodes = [a, b] := by
    rw [nodes_eq_solids, hs, hf.nil_elements]
    rfl
  rw [exprBefore?_eq_solids n rfl, exprAfter?_eq_solids n rfl, hs]
  refine ⟨a, b, ?_, ?_, by simpa [hns] using hd⟩
  · simp [List.takeWhile_cons, List.findSome?_cons, ho, hk, hn, Element.expr?_node ha]
  · simp [List.dropWhile_cons, List.findSome?_cons, ho, hk, hn, hm, Element.expr?_node hb]

theorem Formed.ifElse (hk : n.kind = .ifElse) : ∃ c t e, IfElse.condition? n = some c ∧
    IfElse.thenBranch? n = some t ∧ IfElse.elseBranch? n = some e ∧ c ≠ t ∧ c ≠ e ∧ t ≠ e := by
  obtain ⟨i, es, hs, hi, hf⟩ := (h.fits (by rw [hk]; rfl)).token_elements
  obtain ⟨c, es, rfl, hc, hf⟩ := hf.expr_elements
  obtain ⟨j, es, rfl, hj, hf⟩ := hf.token_elements
  obtain ⟨t, es, rfl, ht, hf⟩ := hf.expr_elements
  obtain ⟨k, es, rfl, hk, hf⟩ := hf.token_elements
  obtain ⟨e, es, rfl, he, hf⟩ := hf.expr_elements
  have hns : n.nodes = [c, t, e] := by
    rw [nodes_eq_solids, hs, hf.nil_elements]
    rfl
  have hd : (c ≠ t ∧ c ≠ e) ∧ t ≠ e := by simpa [hns] using hd
  have hn : ∀ {m : Node}, m.kind.isExpr = true → m.kind ≠ .thenKw ∧ m.kind ≠ .elseKw := by
    intro m hm
    constructor <;> intro hn <;> simp [hn, Kind.isExpr] at hm
  rw [IfElse.condition?, IfElse.thenBranch?, IfElse.elseBranch?, exprBefore?_eq_solids n rfl,
    exprAfter?_eq_solids n rfl, exprAfter?_eq_solids n rfl, hs]
  refine ⟨c, t, e, ?_, ?_, ?_, hd.1.1, hd.1.2, hd.2⟩
  · simp [List.takeWhile_cons, List.findSome?_cons, hi, hn hc, Element.expr?_node hc]
  · simp [List.dropWhile_cons, List.findSome?_cons, hi, hn hc, hj, Element.expr?_node ht]
  · simp [List.dropWhile_cons, List.findSome?_cons, hi, hn hc, hj, hn ht, hk,
      Element.expr?_node he]

theorem Formed.select (hk : n.kind = .select) (hp : ∀ m ∈ n.nodes, m.Formed) :
    ∃ b p, Select.base? n = some b ∧ Select.path? n = some p ∧ AttrPath.attrs p ≠ [] ∧
      (Select.fallback? n).isSome = (n.token? .orKw).isSome ∧ Select.fallback? n ≠ some b := by
  obtain ⟨form, hm, hf⟩ := h
  have hn : ∀ {m : Node}, m.kind.isExpr = true →
      m.kind ≠ .dot ∧ m.kind ≠ .orKw ∧ m.kind ≠ .attrPath := by
    intro m hm
    refine ⟨?_, ?_, ?_⟩ <;> intro hn <;> simp [hn, Kind.isExpr] at hm
  rw [Select.base?, Select.path?, Select.fallback?, child?, exprBefore?_eq_solids n rfl,
    exprAfter?_eq_solids n rfl, token?_eq_solids n rfl]
  simp only [hk, Kind.forms, List.mem_cons, List.not_mem_nil, or_false] at hm
  obtain rfl | rfl := hm
  · obtain ⟨b, es, hs, hb, hf⟩ := hf.expr_elements
    obtain ⟨o, es, rfl, ho, hf⟩ := hf.token_elements
    obtain ⟨p, es, rfl, hpath, hf⟩ := hf.node_elements
    rw [hf.nil_elements] at hs
    have hns : n.nodes = [b, p] := by
      rw [nodes_eq_solids, hs]
      rfl
    rw [hs]
    refine ⟨b, p, ?_, ?_, (hp p (by simp [hns])).attrs hpath, ?_, ?_⟩
    · simp [List.takeWhile_cons, hn hb, Element.expr?_node hb]
    · simp [hns, hn hb, hpath]
    · simp [List.dropWhile_cons, List.filterMap_cons, hn hb, ho, hpath]
    · simp [List.dropWhile_cons, hn hb, ho, hpath]
  · obtain ⟨b, es, hs, hb, hf⟩ := hf.expr_elements
    obtain ⟨o, es, rfl, ho, hf⟩ := hf.token_elements
    obtain ⟨p, es, rfl, hpath, hf⟩ := hf.node_elements
    obtain ⟨o', es, rfl, ho', hf⟩ := hf.token_elements
    obtain ⟨d, es, rfl, hdx, hf⟩ := hf.expr_elements
    have hns : n.nodes = [b, p, d] := by
      rw [nodes_eq_solids, hs, hf.nil_elements]
      rfl
    have hd : (b ≠ p ∧ b ≠ d) ∧ p ≠ d := by simpa [hns] using hd
    rw [hs]
    refine ⟨b, p, ?_, ?_, (hp p (by simp [hns])).attrs hpath, ?_, ?_⟩
    · simp [List.takeWhile_cons, hn hb, Element.expr?_node hb]
    · simp [hns, hn hb, hpath]
    · simp [List.dropWhile_cons, List.filterMap_cons, List.findSome?_cons, hn hb, ho, hpath, ho',
        Element.expr?_node hdx]
    · simp [List.dropWhile_cons, List.findSome?_cons, hn hb, ho, hpath, ho',
        Element.expr?_node hdx, hd.1.2.symm]

theorem Formed.apply (hk : n.kind = .apply) :
    ∃ f a, Apply.function? n = some f ∧ Apply.argument? n = some a ∧ f ≠ a := by
  obtain ⟨f, es, hs, hfx, hf⟩ := (h.fits (by rw [hk]; rfl)).expr_elements
  obtain ⟨a, es, rfl, hax, hf⟩ := hf.expr_elements
  have hns : n.nodes = [f, a] := by
    rw [nodes_eq_solids, hs, hf.nil_elements]
    rfl
  have hx : n.exprs = [f, a] := by simp [exprs, hns, hfx, hax]
  exact ⟨f, a, by simp [Apply.function?, hx], by simp [Apply.argument?, hx],
    by simpa [hns] using hd⟩

theorem Formed.binaryOp (hk : n.kind = .binaryOp) : ∃ l o r, BinaryOp.left? n = some l ∧
    BinaryOp.operator? n = some o ∧ BinaryOp.right? n = some r ∧ l ≠ r := by
  obtain ⟨l, es, hs, hl, hf⟩ := (h.fits (by rw [hk]; rfl)).expr_elements
  obtain ⟨e, es, rfl, he, hf⟩ := hf.one_elements
  obtain ⟨r, es, rfl, hr, hend⟩ := hf.expr_elements
  obtain ⟨o, rfl, ho⟩ | ⟨m, -, hm⟩ := Element.fits_cases he
  · have hns : n.nodes = [l, r] := by
      rw [nodes_eq_solids, hs, hend.nil_elements]
      rfl
    have hx : n.exprs = [l, r] := by simp [exprs, hns, hl, hr]
    have ht : o.kind.isTrivia = false := by
      generalize o.kind = k at ho
      cases k <;> first | rfl | exact absurd ho (by decide)
    have hop : n.solidToken? = some o := by
      rw [solidToken?_eq_solids, hs, hend.nil_elements]
      simp [List.filterMap_cons, ht]
    exact ⟨l, o, r, by simp [BinaryOp.left?, hx], hop, by simp [BinaryOp.right?, hx],
      by simpa [hns] using hd⟩
  · simp at hm

omit h hd in
/-- A node is complete if it and its children are formed, and what is around an inherited name is
the clause of the name. -/
theorem complete_of_formed (h : n.Formed) (hd : n.nodes.Nodup) (hc : ∀ m ∈ n.nodes, m.Formed)
    (hi : n.kind = .inheritedName → (InheritedName.inherit? n).isSome = true) : n.Complete where
  name := h.name
  literal := h.literal
  attr := h.attr
  enclosed := h.enclosed
  select hk := h.select hd hk hc
  hasAttr := h.hasAttr
  letIn := h.letIn
  attrPathValue := h.attrPathValue
  inheritedName hk := ⟨h.inheritedName hk, hi hk⟩
  lambda := h.lambda
  pattern := h.pattern
  withIn hk := h.statement hd (.inl hk)
  assert hk := h.statement hd (.inr hk)
  ifElse := h.ifElse hd
  apply := h.apply hd
  binaryOp := h.binaryOp hd
  unaryOp := h.unaryOp

end

theorem Formed.mem_parts {n : Node} (h : n.Formed) {e : Element} (he : e ∈ n.elements)
    (hs : e.isSolid = true) : n.kind.parts.any (·.fits e.tree) = true := by
  refine (formed_iff.mp h).mem_parts ?_
  rw [← tree_solids]
  exact List.mem_map_of_mem (List.mem_filter.mpr ⟨he, hs⟩)

end Node

theorem Tree.Formed.blank {ts : List Tree} (h : Formed .root ts)
    (hn : (solid ts).find? isExprNode = none) : ∀ t ∈ Rose.leavesOf ts, t.isTrivia = true := by
  obtain ⟨form, hm, hf⟩ := h
  simp only [Kind.forms, List.mem_cons, List.not_mem_nil, or_false] at hm
  obtain rfl | rfl := hm
  · generalize hs : solid ts = us at hf
    cases hf
    rw [solid, List.filter_eq_nil_iff] at hs
    intro t ht
    rw [Rose.leavesOf_eq, List.mem_flatMap] at ht
    obtain ⟨u, hu, ht⟩ := ht
    cases u with
    | leaf l =>
      obtain rfl := List.mem_singleton.mp ht
      simpa [isSolid] using hs _ hu
    | branch k us => exact absurd rfl (hs _ hu)
  · generalize solid ts = us at hf hn
    cases hf with
    | @one _ _ t _ h hs =>
      cases t with
      | leaf l => cases h
      | branch k vs => simp_all [Part.fits]

/-- In a text without problems nothing stands for broken input, there is an expression unless the
text is blank, and every node is complete. -/
theorem parse_complete (text : String) (h : (parse text).errors = []) :
    (∀ e ∈ (parse text).root.walk, e.kind ≠ .error) ∧
      ((parse text).root.expr? = none → ∀ t ∈ Token.lex text, t.isTrivia = true) ∧
      ∀ n ∈ (parse text).root.descendants, n.Complete := by
  have hall := Parse.everywhere_formed _ h
  have hformed : ∀ n ∈ (parse text).root.descendants, n.Formed := by
    intro n hn
    rw [Node.formed_iff]
    exact Node.everywhere_of_mem_descendants hall hn
  refine ⟨?_, ?_, ?_⟩
  · intro e he hk
    obtain rfl | ⟨m, hm, he⟩ := Node.mem_elements_of_mem_walk he
    · cases hk
    · cases e with
      | node c =>
        have hc := Node.mem_descendants_of_mem_nodes hm (Node.node_mem_elements.mp he)
        obtain ⟨form, hf, -⟩ := hformed c hc
        rw [Element.kind_node] at hk
        rw [hk] at hf
        cases hf
      | leaf l =>
        rw [Element.kind_leaf] at hk
        have hp := (hformed m hm).mem_parts he (by rw [Element.isSolid_leaf, hk]; rfl)
        obtain ⟨l', hl, ht⟩ | ⟨n, hn, -⟩ := Element.fits_cases hp
        · cases hl
          rw [hk] at ht
          exact Kind.token_error_not_mem_parts _ ht
        · cases hn
  · intro hn
    have hroot : Tree.Formed .root (parse text).content := by
      rw [Parse.root, Node.tree_root] at hall
      cases hall with
      | branch hp hs => exact hp
    have ht := Node.tree_expr? (parse text).root
    have hc : (parse text).root.trees = (parse text).content := Tree.tree_placeAll 0 0 _
    rw [hn, hc] at ht
    have hl : Rose.leavesOf (parse text).content = Token.lex text := Parse.leaves_ofTokens _
    rw [← hl]
    exact hroot.blank ht.symm
  · intro n hn
    have hp := Node.isPlaced_of_mem_root hn
    refine Node.complete_of_formed (hformed n hn) (Node.nodes_nodup hp)
      (fun m hm => hformed m (Node.mem_descendants_of_mem_nodes hn hm)) fun hk => ?_
    obtain rfl | ⟨m, hm, hc⟩ := Node.exists_parent hn
    · cases hk
    · have hmp := (hformed m hm).mem_parts (Node.node_mem_elements.mpr hc) (Element.isSolid_node n)
      obtain ⟨l, hl, -⟩ | ⟨c, hcn, ht⟩ := Element.fits_cases hmp
      · cases hl
      · cases hcn
        rw [hk] at ht
        have hi := Kind.eq_inherit_of_mem_parts (by simpa [Kind.isExpr] using ht)
        simp [InheritedName.inherit?, Node.parent?_of_mem_nodes hc, hi]

theorem parse_complete_lambda :
    (parse "{ a ? 1, ... }: with a.b or c; let inherit (a) x; in [ x (-y) ]").errors = [] ∧
      ∀ n ∈ (parse "{ a ? 1, ... }: with a.b or c; let inherit (a) x; in [ x (-y) ]"
        ).root.descendants, n.Complete :=
  ⟨by decide +kernel, (parse_complete _ (by decide +kernel)).2.2⟩

end NixScope.Syntax
