import NixScope.Proofs.Alone

namespace NixScope.Syntax

open Place Grammar

/-- A run without problems has come by the tree, which begins with a token. -/
def Tree.Parsed (t : Tree) : Prop :=
  ∃ l p q, Origin l p t q ∧ p.skipTrivia = p ∧ q.errors = []

namespace Rule

/-- All expressions among the trees that the rule builds without a problem have an origin. -/
structure Parses (r : Rule) : Prop where
  reads : r.Reads
  parsed : ∀ p, (r p).2.errors = [] → ∀ k us, .branch k us ∈ (r p).1 → k.isExpr = true →
    Tree.Parsed (.branch k us)

variable {r : Rule} {rs : List Rule}

theorem parses_of_flat (hr : r.Reads) (h : r.Flat) : r.Parses := by
  refine ⟨hr, fun p _ k us hm => ?_⟩
  obtain ⟨l, hl⟩ := h p _ hm
  cases hl

theorem parses_token : token.Parses := parses_of_flat reads_token flat_token

theorem parses_report {problem : Problem} (h : problem ≠ .nestedTooDeeply) :
    (report problem).Parses :=
  parses_of_flat (reads_report h) fun p t ht => by simp [report] at ht

theorem Parses.nil : (seq []).Parses := parses_of_flat reads_skip fun p t ht => by
  simp [seq, skip] at ht

theorem Parses.cons (h : r.Parses) (hs : (seq rs).Parses) : (seq (r :: rs)).Parses := by
  refine ⟨fun p => (h.reads p).append (hs.reads _), fun p hq k us hm => ?_⟩
  obtain ⟨hq', hq⟩ := clean_of_seq hs.reads hq
  rw [seq_cons_apply, List.mem_append] at hm
  obtain hm | hm := hm
  · exact h.parsed p hq' k us hm
  · exact hs.parsed _ hq k us hm

theorem parses_node {kind : Kind} (hr : (node kind r).Reads) (he : kind.isExpr = false) :
    (node kind r).Parses := by
  refine ⟨hr, fun p _ k us hm hx => ?_⟩
  rw [node, List.mem_append, List.mem_singleton] at hm
  obtain hm | hm := hm
  · obtain ⟨l, hl⟩ := flat_trivia p _ hm
    cases hl
  · cases hm
    simp [he] at hx

theorem Parses.onlyIf (h : r.Parses) (condition : Place → Bool) : (onlyIf condition r).Parses := by
  refine ⟨reads_onlyIf _ h.reads, fun p hq k us hm => ?_⟩
  rw [Rule.onlyIf] at hq hm
  by_cases hc : condition p
  · rw [if_pos hc] at hq hm
    exact h.parsed p hq k us hm
  · simp [hc] at hm

theorem Parses.when (h : r.Parses) (kind : Kind) : («when» kind r).Parses := h.onlyIf _

theorem Parses.ifPeek {kind : Kind} {problem : Problem} (h : r.Parses)
    (hp : problem ≠ .nestedTooDeeply) :
    Parses fun p => if p.peek = some kind then r p else report problem p := by
  refine ⟨reads_ifPeek h.reads hp, fun p hq k us hm => ?_⟩
  split at hm
  · rename_i hk
    rw [if_pos hk] at hq
    exact h.parsed p hq k us hm
  · simp [report] at hm

theorem parses_expect (kind : Kind) : (expect kind).Parses := parses_token.ifPeek (by simp)

theorem parses_many {element : Place → Option Rule} (h : ∀ p r, element p = some r → r.Parses) :
    (many element).Parses := by
  have hr : ∀ clock, (manyFrom element clock).Reads :=
    reads_manyFrom fun p r he => (h p r he).reads
  suffices hm : ∀ clock, (manyFrom element clock).Parses from
    ⟨fun p => hr p.rest p, fun p => (hm p.rest).parsed p⟩
  intro clock
  induction clock with
  | nil => exact ⟨hr [], fun p _ k us hm => by simp [manyFrom] at hm⟩
  | cons c clock ih =>
    refine ⟨hr _, fun p hq k us hm => ?_⟩
    rw [manyFrom] at hq hm
    cases he : element p with
    | none => simp [he] at hm
    | some r =>
      have hs : (seq [r, manyFrom element clock]).Parses := (h p r he).cons (ih.cons .nil)
      simp only [he] at hq hm
      refine hs.parsed p ?_ k us ?_
      · simpa [seq_cons_apply, seq_nil_apply] using hq
      · simpa [seq_cons_apply, seq_nil_apply] using hm

/-- The rule builds one tree, behind the blanks ahead. -/
def Single (r : Rule) : Prop := ∀ p, (r p).2.errors = [] → ∃ t, (r p).1 = (trivia p).1 ++ [t]

theorem single_node (kind : Kind) (r : Rule) : (node kind r).Single := fun _ _ => ⟨_, rfl⟩

end Rule

namespace Grammar

open Rule

section

variable {inner : Phrase → Rule} (hs : ∀ phrase, (inner phrase).Single) {p q : Place}
  {ts : List Tree}

include hs

theorem Selection.single (hsel : Selection inner p ts q) (hp : p.skipTrivia = p)
    (hq : q.errors = []) : ∃ t, ts = [t] := by
  cases hsel with
  | atom ha hd =>
    obtain ⟨t, ht⟩ := hs .atom p (by rwa [ha])
    rw [ha, trivia_of_skipTrivia_eq hp] at ht
    exact ⟨t, ht⟩
  | path ha hd hs ho => exact ⟨_, rfl⟩
  | fallback ha hd hs ho hf => exact ⟨_, rfl⟩
  | @broken p q s ts us ha hs hd => exact absurd (by rwa [hs]) (brokenDot_not_clean q)

theorem Application.single (ha : Application inner p ts q) (hp : p.skipTrivia = p)
    (hq : q.errors = []) : ∃ t, ts = [t] := by
  cases ha with
  | selection hsel => exact hsel.single hs hp hq
  | apply hf ha hsel => exact ⟨_, rfl⟩

theorem Operation.single {power : Nat} (ho : Operation inner power p ts q)
    (hp : p.skipTrivia = p) (hq : q.errors = []) : ∃ t, ts = [t] := by
  cases ho with
  | application ha hu hn => exact ha.single hs hp hq
  | unary hu hs => exact ⟨_, rfl⟩
  | hasAttr hl hk hp hs => exact ⟨_, rfl⟩
  | binaryOp hl hk hb hp hr hs => exact ⟨_, rfl⟩

end

theorem single_nested (l : Nat) (phrase : Phrase) : (nested l phrase).Single := by
  induction l generalizing phrase with
  | zero => exact fun p hq => absurd hq (giveUp_not_clean p)
  | succ l ih =>
    have h := reads_nested l
    have hoperand : ∀ power, (operand (nested l) power).Single := by
      intro power p hq
      have hc := consistent_of_clean (Leads.clean ((reads_operand h power).moves p) hq)
      obtain ⟨ts, q, he, ho, -⟩ :
          ∃ ts q, operand (nested l) power p = _ ∧ Operation (nested l) power p.skipTrivia ts q ∧ _ :=
        operation_operand h (starts_nested l) hc
      rw [he] at hq ⊢
      obtain ⟨t, rfl⟩ := ho.single ih (skipTrivia_skipTrivia _) hq
      exact ⟨t, rfl⟩
    intro p hq
    cases phrase with
    | operand power => exact hoperand power p hq
    | expr =>
      change (expr (nested l) p).2.errors = [] at hq
      change ∃ t, (expr (nested l) p).1 = _
      obtain ⟨r, hr, he⟩ := expr_choice (nested l) p
      rw [he] at hq ⊢
      cases hr with
      | operand hk hn => exact hoperand 0 p hq
      | _ => exact single_node _ _ p hq
    | atom =>
      change (atom (nested l) p).2.errors = [] at hq
      change ∃ t, (atom (nested l) p).1 = _
      obtain ⟨r, hr, he⟩ := atom_choice (nested l) p
      rw [he] at hq ⊢
      generalize p.peek = o at hr
      cases hr with
      | keyword hk => exact ih .expr p hq
      | broken hs ha => exact absurd hq (recover_not_clean _ p)
      | _ => exact single_node _ _ p hq

theorem nested_eq {l : Nat} {phrase : Phrase} {p : Place}
    (hq : (nested l phrase p).2.errors = []) : ∃ t q, q.errors = [] ∧
      nested l phrase p = ((trivia p).1 ++ [t], q) ∧
      nested l phrase p.skipTrivia = ([t], q) := by
  have hk := skips_nested l phrase p hq
  simp only [seq_cons_apply, seq_nil_apply, trivia_eq, List.append_nil] at hk
  rw [hk] at hq ⊢
  obtain ⟨t, ht⟩ := single_nested l phrase p.skipTrivia hq
  rw [trivia_skipTrivia, List.nil_append] at ht
  exact ⟨t, _, hq, by rw [ht, trivia_eq], Prod.ext ht rfl⟩

theorem mem_of_mem_trivia {p : Place} {ts : List Tree} {k : Kind} {us : List Tree}
    (h : .branch k us ∈ (trivia p).1 ++ ts) : .branch k us ∈ ts := by
  obtain h | h := List.mem_append.mp h
  · obtain ⟨l, hl⟩ := flat_trivia p _ h
    cases hl
  · exact h

section

variable {l : Nat}

theorem parses_expr (hl : l ≤ maxDepth) : (nested l .expr).Parses := by
  refine ⟨reads_nested l .expr, fun p hq k us hm hk => ?_⟩
  obtain ⟨t, q, hc, he, he'⟩ := nested_eq hq
  rw [he] at hm
  obtain rfl := List.mem_singleton.mp (mem_of_mem_trivia hm)
  exact ⟨l, p.skipTrivia, q, .expr hl he', p.skipTrivia_skipTrivia, hc⟩

theorem parsed_of_atom (hl : l < maxDepth) {p q : Place} {ts : List Tree}
    (h : nested l .atom p = (ts, q)) (hq : q.errors = []) {k : Kind} {us : List Tree}
    (hm : .branch k us ∈ ts) : Tree.Parsed (.branch k us) := by
  obtain ⟨t, q', hc, he, he'⟩ := @nested_eq l .atom p (by rwa [h])
  obtain ⟨rfl, rfl⟩ := Prod.mk.inj (h.symm.trans he)
  obtain rfl := List.mem_singleton.mp (mem_of_mem_trivia hm)
  exact ⟨l, p.skipTrivia, q, .atom hl he', p.skipTrivia_skipTrivia, hc⟩

theorem parsed_of_application (hl : l < maxDepth) {p q : Place} {ts : List Tree}
    (h : Application (nested l) p ts q) (hp : p.skipTrivia = p) (hq : q.errors = []) {k : Kind}
    {us : List Tree} (hm : .branch k us ∈ ts) : Tree.Parsed (.branch k us) := by
  obtain ⟨t, rfl⟩ := h.single (single_nested l) hp hq
  obtain rfl := List.mem_singleton.mp hm
  exact ⟨l, p, q, .application hl h, hp, hq⟩

theorem parsed_of_operation (hl : l < maxDepth) {power : Nat} {p q : Place} {ts : List Tree}
    (h : Operation (nested l) power p ts q) (hp : p.skipTrivia = p) (hq : q.errors = []) {k : Kind}
    {us : List Tree} (hm : .branch k us ∈ ts) : Tree.Parsed (.branch k us) := by
  obtain ⟨t, rfl⟩ := h.single (single_nested l) hp hq
  obtain rfl := List.mem_singleton.mp hm
  exact ⟨l, p, q, .operation hl h, hp, hq⟩

theorem parses_select (hl : l < maxDepth) : (select (nested l)).Parses := by
  have h := reads_nested l
  refine ⟨reads_select h, fun p hq k us hm hk => ?_⟩
  have hc := consistent_of_clean (Leads.clean ((reads_select h).moves p) hq)
  obtain ⟨ts, q, he, hs⟩ := selection_select h hc
  rw [he] at hq hm
  exact parsed_of_application hl (.selection hs) (skipTrivia_skipTrivia _) hq
    (mem_of_mem_trivia hm)

theorem parses_operand (hl : l ≤ maxDepth) (power : Nat) : (nested l (.operand power)).Parses := by
  refine ⟨reads_nested l _, fun p hq k us hm hk => ?_⟩
  cases l with
  | zero => exact absurd hq (giveUp_not_clean p)
  | succ l =>
    have h := reads_nested l
    have hc := consistent_of_clean (Leads.clean ((reads_operand h power).moves p) hq)
    obtain ⟨ts, q, he, ho, -⟩ :
        ∃ ts q, operand (nested l) power p = _ ∧ Operation (nested l) power p.skipTrivia ts q ∧ _ :=
      operation_operand h (starts_nested l) hc
    change (operand (nested l) power p).2.errors = [] at hq
    change _ ∈ (operand (nested l) power p).1 at hm
    rw [he] at hq hm
    exact parsed_of_operation hl ho (skipTrivia_skipTrivia _) hq (mem_of_mem_trivia hm)

theorem parses_listElements (hl : l < maxDepth) : (many (listElement (nested l))).Parses := by
  refine parses_many fun p r hr => ?_
  obtain ⟨k, -, hr⟩ := Option.bind_eq_some_iff.mp hr
  split at hr
  · cases hr
    exact parses_select hl
  split at hr
  · cases hr
  · cases hr
    exact ⟨reads_recover (by simp), fun p hq => absurd hq (recover_not_clean _ p)⟩

end

section

variable {inner : Phrase → Rule} (h : ∀ phrase, (inner phrase).Reads)

include h

theorem parses_stringParts : (many (stringPart inner)).Parses := by
  refine parses_many fun p r hr => ?_
  simp only [stringPart] at hr
  split at hr <;> cases hr
  · exact parses_token
  · exact parses_node (reads_hole h (by decide)) rfl

theorem parses_pathParts : (many (pathPart inner)).Parses := by
  refine parses_many fun p r hr => ?_
  simp only [pathPart] at hr
  split at hr <;> cases hr
  · exact parses_token
  · exact parses_node (reads_hole h (by decide)) rfl

theorem parses_attr : (attr inner).Parses := by
  refine ⟨reads_attr h, fun p _ k us hm hk => ?_⟩
  obtain hm | hm := List.mem_append.mp hm
  · obtain ⟨l, hl⟩ := flat_trivia p _ hm
    cases hl
  · obtain ⟨rfl, -⟩ := Rose.branch.inj (List.mem_singleton.mp hm)
    cases hk

theorem parses_dotAttrs :
    (many fun p => if dotAttrAhead p then some (seq [token, attr inner]) else none).Parses := by
  refine parses_many fun p r hr => ?_
  obtain ⟨-, hr⟩ := Option.ite_none_right_eq_some.mp hr
  cases hr
  exact parses_token.cons ((parses_attr h).cons .nil)

theorem parses_attrPath : (attrPath inner).Parses := parses_node (reads_attrPath h) rfl

theorem parses_dotPath : (seq [token, attrPath inner]).Parses :=
  parses_token.cons ((parses_attrPath h).cons .nil)

theorem parses_inheritedNames : (many (inheritedName inner)).Parses := by
  refine parses_many fun p r hr => ?_
  obtain ⟨-, hr⟩ := Option.ite_none_right_eq_some.mp hr
  cases hr
  exact parses_node (reads_node (by decide) (reads_attr h)) rfl

theorem parses_bindings (terminator : Kind) : (many (binding inner terminator)).Parses := by
  refine parses_many fun p r hr => ?_
  obtain ⟨k, -, hr⟩ := Option.bind_eq_some_iff.mp hr
  split at hr
  · cases hr
  split at hr
  · cases hr
    exact parses_node (reads_inherit h) rfl
  split at hr
  · cases hr
    exact parses_node (reads_attrPathValue h) rfl
  split at hr
  · cases hr
  · cases hr
    exact (parses_report (by simp)).cons ((parses_node (reads_node (by decide) reads_token) rfl).cons .nil)

theorem parses_formals : (formals inner).Parses := by
  suffices hm : ∀ clock, (formalsFrom inner clock).Parses from
    ⟨reads_formals h, fun p => (hm p.rest).parsed p⟩
  intro clock
  induction clock with
  | nil => exact .nil
  | cons c clock ih =>
    have hcomma : («when» .comma (seq [token, formalsFrom inner clock])).Parses :=
      (parses_token.cons (ih.cons .nil)).when .comma
    have hformal : ∀ kind, (formal inner kind).Parses := by
      intro kind
      simp only [formal]
      split
      · exact parses_token
      · exact parses_node (reads_formal h .ident) rfl
      · exact ⟨reads_recover (by simp), fun p hq => absurd hq (recover_not_clean _ p)⟩
    refine ⟨reads_formalsFrom h _, fun p hq k us hm hk => ?_⟩
    generalize he : formalsFrom inner (c :: clock) p = a at hq hm
    rw [formalsFrom] at he
    dsimp only at he
    split at he
    · subst he
      simp at hm
    · subst he
      simp at hm
    · subst he
      exact ((hformal _).cons (hcomma.cons .nil)).parsed p hq k us hm hk

end

theorem parses_paramName : paramName.Parses := parses_node reads_paramName rfl

section

variable {l : Nat} {p q : Place} {kind : Kind} {ts : List Tree}

theorem Body.parses {r : Rule} (hb : Body (nested l) kind p r) (hl : l < maxDepth)
    (hk : kind ≠ .attr) : r.Parses := by
  have h := reads_nested l
  have hx : (nested l .expr).Parses := parses_expr (Nat.le_of_lt hl)
  have hend : ∀ kind, (seq [nested l .expr, expect kind]).Parses :=
    fun kind => hx.cons ((parses_expect kind).cons .nil)
  cases hb with
  | hole hk hp => exact parses_token.cons (hend _)
  | string ho hp =>
    exact parses_token.cons ((parses_stringParts h).cons
      ((parses_token.ifPeek (by simp)).cons .nil))
  | interpolatedPath hp => exact parses_token.cons ((parses_pathParts h).cons .nil)
  | attrName hp => exact absurd rfl hk
  | attrString hp => exact absurd rfl hk
  | attrDynamic hp => exact absurd rfl hk
  | noAttr hp => exact absurd rfl hk
  | attrPath => exact (parses_attr h).cons ((parses_dotAttrs h).cons .nil)
  | inheritedName hp => exact parses_attr h
  | inheritFrom hp => exact parses_token.cons (hend _)
  | inherit hp =>
    have hf : (node .inheritFrom (seq [token, nested l .expr, expect .rightParen])).Parses :=
      parses_node (reads_node (by decide) (reads_seq (by simp [h]))) rfl
    exact parses_token.cons ((hf.when _).cons
      ((parses_inheritedNames h).cons ((parses_expect _).cons .nil)))
  | attrPathValue hp => exact (parses_attrPath h).cons ((parses_expect _).cons (hend _))
  | attrSet hp =>
    exact (parses_token.when _).cons ((parses_expect _).cons
      ((parses_bindings h _).cons ((parses_expect _).cons .nil)))
  | error hp he => exact parses_token
  | remaining he => exact parses_of_flat reads_remaining flat_remaining
  | list hp =>
    exact parses_token.cons ((parses_listElements hl).cons ((parses_expect _).cons .nil))
  | paramName hp => exact parses_token
  | patternEntry hp =>
    exact parses_paramName.cons (((parses_token.cons (hx.cons .nil)).when _).cons .nil)
  | bindBefore hp => exact parses_paramName.cons ((parses_expect _).cons .nil)
  | bindAfter hp => exact parses_token.cons ((parses_paramName.ifPeek (by simp)).cons .nil)
  | pattern hp =>
    have hbind : (node .patternBind (seq [Grammar.paramName, expect .atSign])).Parses :=
      parses_node (reads_node (by decide) (reads_seq (by simp))) rfl
    have hname : patternName.Parses := parses_node reads_patternName rfl
    exact (hbind.when _).cons ((parses_expect _).cons
      ((parses_formals h).cons ((parses_expect _).cons ((hname.when _).cons .nil))))
  | patternLambda hp =>
    have hpattern : (Grammar.pattern (nested l)).Parses := parses_node (reads_pattern h) rfl
    exact hpattern.cons ((parses_expect _).cons (hx.cons .nil))
  | nameLambda hp hc => exact parses_paramName.cons (parses_token.cons (hx.cons .nil))
  | withIn hp => exact parses_token.cons (hx.cons ((parses_expect _).cons (hx.cons .nil)))
  | assert hp => exact parses_token.cons (hx.cons ((parses_expect _).cons (hx.cons .nil)))
  | ifElse hp =>
    exact parses_token.cons (hx.cons ((parses_expect _).cons
      (hx.cons ((parses_expect _).cons (hx.cons .nil)))))
  | letIn hp =>
    exact parses_token.cons ((parses_bindings h _).cons ((parses_expect _).cons (hx.cons .nil)))
  | var hp => exact parses_token
  | literal hk hp => exact parses_token
  | paren hp => exact parses_token.cons (hend _)
  | unaryOp hp => exact parses_token.cons ((parses_operand (Nat.le_of_lt hl) _).cons .nil)

theorem Production.parsed (hp : Production (nested l) kind p ts q) (hl : l < maxDepth)
    (hs : p.skipTrivia = p) (hq : q.errors = []) (hk : kind ≠ .attr) {k : Kind} {us : List Tree}
    (hm : .branch k us ∈ ts) (hx : k.isExpr = true) : Tree.Parsed (.branch k us) := by
  have h := reads_nested l
  have htrivia : ∀ s, .branch k us ∉ (trivia s).1 := by
    intro s hm
    obtain ⟨t, ht⟩ := flat_trivia s _ hm
    cases ht
  have htoken : ∀ s, .branch k us ∉ (token s).1 := by
    intro s hm
    obtain ⟨t, ht⟩ := flat_token s _ hm
    cases ht
  have hdot : ∀ {s vs u}, seq [token, attrPath (nested l)] s = (vs, u) → u.errors = [] →
      .branch k us ∈ vs → Tree.Parsed (.branch k us) := by
    intro s vs u he hu hv
    refine (parses_dotPath h).parsed s ?_ k us ?_ hx
    · rwa [he]
    · rwa [he]
  cases hp with
  | body hb hr =>
    refine (hb.parses hl hk).parsed p ?_ k us ?_ hx
    · rwa [hr]
    · rwa [hr]
  | giveUp hp hr =>
    obtain ⟨t, ht⟩ := flat_remaining (p.report .nestedTooDeeply).skipTrivia _ (by rwa [hr])
    cases ht
  | select ha hd hp ho =>
    obtain hm | hm := List.mem_append.mp hm
    · exact parsed_of_atom hl ha (((reads_dotPath h).leads hp).clean hq) hm
    · exact hdot hp hq hm
  | @selectOr _ _ s _ _ _ _ ha hd hp ho hf =>
    have hs' : s.errors = [] :=
      ((reads_token.leads_apply s).trans ((leads_skipTrivia _).trans (hf.leads h))).clean hq
    simp only [List.mem_append, htoken, htrivia, or_false] at hm
    obtain (hm | hm) | hm := hm
    · exact parsed_of_atom hl ha (((reads_dotPath h).leads hp).clean hs') hm
    · exact hdot hp hs' hm
    · exact parsed_of_application hl (.selection hf) (skipTrivia_skipTrivia _) hq hm
  | @apply _ s _ _ _ hf ha hsel =>
    have hs' : s.errors = [] := ((leads_skipTrivia s).trans (hsel.leads h)).clean hq
    simp only [List.mem_append, htrivia, or_false] at hm
    obtain hm | hm := hm
    · exact parsed_of_application hl hf hs hs' hm
    · exact parsed_of_application hl (.selection hsel) (skipTrivia_skipTrivia _) hq hm
  | hasAttr ho hk hp =>
    obtain hm | hm := List.mem_append.mp hm
    · exact parsed_of_operation hl ho hs (((reads_dotPath h).leads hp).clean hq) hm
    · exact hdot hp hq hm
  | @binaryOp _ _ _ _ _ s _ _ _ ho hk hb hr hstop =>
    have hs' : s.errors = [] :=
      ((reads_token.leads_apply s).trans ((leads_skipTrivia _).trans (hr.leads h))).clean hq
    simp only [List.mem_append, htoken, htrivia, or_false] at hm
    obtain hm | hm := hm
    · exact parsed_of_operation hl ho hs hs' hm
    · exact parsed_of_operation hl hr (skipTrivia_skipTrivia _) hq hm

end

end Grammar

end NixScope.Syntax
