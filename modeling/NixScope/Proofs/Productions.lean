import NixScope.Proofs.Clean
import NixScope.Syntax.Parse

namespace NixScope.Syntax

namespace Rule

def Flat (r : Rule) : Prop := ∀ p, ∀ t ∈ (r p).1, ∃ l, t = .leaf l

theorem flat_trivia : trivia.Flat := by
  intro p t ht
  rw [trivia_eq] at ht
  obtain ⟨l, -, rfl⟩ := List.mem_map.mp ht
  exact ⟨l, rfl⟩

theorem flat_leaf : leaf.Flat := by
  intro p t ht
  simp only [leaf] at ht
  split at ht
  · simp at ht
  · exact ⟨_, List.mem_singleton.mp ht⟩

theorem flat_token : token.Flat := by
  intro p t ht
  simp only [token, seq_cons_apply, seq_nil_apply, List.append_nil, List.mem_append] at ht
  obtain ht | ht := ht
  · exact flat_trivia p t ht
  · exact flat_leaf _ t ht

theorem flat_remaining : remaining.Flat := by
  suffices h : ∀ clock, Flat (manyFrom (fun p => p.peek.map fun _ => token) clock) from
    fun p => h p.rest p
  intro clock
  induction clock with
  | nil =>
    intro p t ht
    simp [manyFrom] at ht
  | cons c clock ih =>
    intro p t ht
    simp only [manyFrom] at ht
    split at ht
    · simp at ht
    · rename_i r hr
      obtain ⟨k, -, rfl⟩ := Option.map_eq_some_iff.mp hr
      obtain ht | ht := List.mem_append.mp ht
      · exact flat_token p t ht
      · exact ih _ t ht

end Rule

namespace Grammar

open Rule

section

variable (inner : Phrase → Rule)

/-- The rule that builds what is in a node of the kind, at a place where the node may begin. -/
inductive Body : Kind → Place → Rule → Prop
  | hole {kind p} (hk : kind = .interpolation ∨ kind = .dynamic) (hp : p.peek = some .dollarBrace) :
      Body kind p (seq [token, inner .expr, expect .rightBrace])
  | string {opening p} (ho : opening = .quote ∨ opening = .indentedQuote)
      (hp : p.peek = some opening) :
      Body .string p (seq [token, many (stringPart inner),
        fun p => if p.peek = some opening then token p else report .unterminatedString p])
  | interpolatedPath {p} (hp : p.peek = some .pathFragment) :
      Body .interpolatedPath p (seq [token, many (pathPart inner)])
  | attrName {p} (hp : p.peek = some .ident ∨ p.peek = some .orKw) : Body .attr p token
  | attrString {p} (hp : p.peek = some .quote) : Body .attr p (string inner .quote)
  | attrDynamic {p} (hp : p.peek = some .dollarBrace) : Body .attr p (hole inner .dynamic)
  | noAttr {p} (hp : p.peek.any Kind.startsAttr = false) : Body .attr p (report .noAttrName)
  | attrPath {p} : Body .attrPath p (seq [attr inner,
      many fun p => if dotAttrAhead p then some (seq [token, attr inner]) else none])
  | inheritedName {p} (hp : p.peek.any Kind.startsAttr = true) : Body .inheritedName p (attr inner)
  | inheritFrom {p} (hp : p.peek = some .leftParen) :
      Body .inheritFrom p (seq [token, inner .expr, expect .rightParen])
  | inherit {p} (hp : p.peek = some .inheritKw) : Body .inherit p (seq [token,
      «when» .leftParen (node .inheritFrom (seq [token, inner .expr, expect .rightParen])),
      many (inheritedName inner), expect .semicolon])
  | attrPathValue {p} (hp : p.peek.any Kind.startsAttr = true) :
      Body .attrPathValue p
        (seq [attrPath inner, expect .assign, inner .expr, expect .semicolon])
  | attrSet {p} (hp : p.peek = some .leftBrace ∨ p.peek = some .recKw) :
      Body .attrSet p (seq [«when» .recKw token, expect .leftBrace,
        many (binding inner .rightBrace), expect .rightBrace])
  | error {p k} (hp : p.peek = some k) (he : p.errors ≠ []) : Body .error p token
  | remaining {p} (he : p.errors ≠ []) : Body .error p remaining
  | list {p} (hp : p.peek = some .leftBracket) :
      Body .list p (seq [token, many (listElement inner), expect .rightBracket])
  | paramName {p} (hp : p.peek = some .ident) : Body .paramName p token
  | patternEntry {p} (hp : p.peek = some .ident) :
      Body .patternEntry p (seq [paramName, «when» .question (seq [token, inner .expr])])
  | bindBefore {p} (hp : p.peek = some .ident) :
      Body .patternBind p (seq [paramName, expect .atSign])
  | bindAfter {p} (hp : p.peek = some .atSign) : Body .patternBind p (seq [token,
      fun p => if p.peek = some .ident then paramName p else report .noBindName p])
  | pattern {p} (hp : p.peek = some .leftBrace ∨ p.peek = some .ident) :
      Body .pattern p (seq [«when» .ident (node .patternBind (seq [paramName, expect .atSign])),
        expect .leftBrace, formals inner, expect .rightBrace, «when» .atSign patternName])
  | patternLambda {p} (hp : p.peek = some .leftBrace ∨ p.peek = some .ident) :
      Body .lambda p (seq [pattern inner, expect .colon, inner .expr])
  | nameLambda {p} (hp : p.peek = some .ident) (hc : p.ahead 1 = some .colon) :
      Body .lambda p (seq [paramName, token, inner .expr])
  | withIn {p} (hp : p.peek = some .withKw) :
      Body .withIn p (seq [token, inner .expr, expect .semicolon, inner .expr])
  | assert {p} (hp : p.peek = some .assertKw) :
      Body .assert p (seq [token, inner .expr, expect .semicolon, inner .expr])
  | ifElse {p} (hp : p.peek = some .ifKw) : Body .ifElse p (seq [token, inner .expr,
      expect .thenKw, inner .expr, expect .elseKw, inner .expr])
  | letIn {p} (hp : p.peek = some .letKw) :
      Body .letIn p (seq [token, many (binding inner .inKw), expect .inKw, inner .expr])
  | var {p} (hp : p.peek = some .ident) : Body .var p token
  | literal {p k} (hk : k ∈ [.integer, .float, .path, .searchPath, .uri]) (hp : p.peek = some k) :
      Body .literal p token
  | paren {p} (hp : p.peek = some .leftParen) :
      Body .paren p (seq [token, inner .expr, expect .rightParen])
  | unaryOp {p r} (hp : p.peek.bind Kind.unaryPower = some r) :
      Body .unaryOp p (seq [token, inner (.operand r)])

/-- The grammar builds a node of the kind with the given children between the two places. A node
around trees that stood there before it begins where these begin. -/
inductive Production : Kind → Place → List Tree → Place → Prop
  | body {kind : Kind} {p q : Place} {r : Rule} {ts : List Tree} (hb : Body inner kind p r)
      (hr : r p = (ts, q)) : Production kind p ts q
  | giveUp {p q : Place} {ts : List Tree} (hp : p.gaveUp = false)
      (hr : remaining (p.report .nestedTooDeeply).skipTrivia = (ts, q)) : Production .error p ts q
  | select {p q s : Place} {ts us : List Tree} (ha : inner .atom p = (ts, q))
      (hd : dotAttrAhead q = true) (hs : seq [token, attrPath inner] q = (us, s))
      (ho : s.peek ≠ some .orKw) : Production .select p (ts ++ us) s
  | selectOr {p q s u : Place} {ts us vs : List Tree} (ha : inner .atom p = (ts, q))
      (hd : dotAttrAhead q = true) (hs : seq [token, attrPath inner] q = (us, s))
      (ho : s.peek = some .orKw) (hf : Selection inner (token s).2.skipTrivia vs u) :
      Production .select p (ts ++ us ++ (token s).1 ++ (trivia (token s).2).1 ++ vs) u
  | apply {p q s : Place} {ts us : List Tree} (hf : Application inner p ts q)
      (ha : q.peek.any Kind.startsArgument = true) (hs : Selection inner q.skipTrivia us s) :
      Production .apply p (ts ++ (trivia q).1 ++ us) s
  | hasAttr {power : Nat} {p q s : Place} {ts us : List Tree}
      (hl : Operation inner power p ts q) (hk : q.peek = some .question)
      (hs : seq [token, attrPath inner] q = (us, s)) : Production .hasAttr p (ts ++ us) s
  | binaryOp {power l r : Nat} {k : Kind} {p q s : Place} {ts us : List Tree}
      (hl : Operation inner power p ts q) (hk : q.peek = some k)
      (hb : k.bindingPower = some (l, r)) (hr : Operation inner r (token q).2.skipTrivia us s)
      (hs : Stops r s) :
      Production .binaryOp p (ts ++ (token q).1 ++ (trivia (token q).2).1 ++ us) s

end

theorem Body.ne_root {inner : Phrase → Rule} {kind : Kind} {p : Place} {r : Rule}
    (h : Body inner kind p r) : kind ≠ .root := by
  cases h with
  | hole hk hp => obtain rfl | rfl := hk <;> decide
  | _ => decide

theorem Production.ne_root {inner : Phrase → Rule} {kind : Kind} {p q : Place} {ts : List Tree}
    (h : Production inner kind p ts q) : kind ≠ .root := by
  cases h with
  | body hb hr => exact hb.ne_root
  | _ => decide

theorem maxDepth_pos : 0 < maxDepth := Nat.succ_pos 511

section

variable (first last : Place)

/-- On the way from `first` to `last` the grammar builds a node of the kind with these children,
within the limit on nesting. No blanks or comments are ahead where it begins. -/
def Built (kind : Kind) (ts : List Tree) : Prop :=
  ∃ (levels : Fin maxDepth) (p q : Place), (first.Leads p ∧ p.skipTrivia = p) ∧
    Production (nested levels) kind p ts q ∧ q.Leads last

def BuiltBefore (kind : Kind) (ts : List Tree) (after : List Token) : Prop :=
  ∃ (levels : Fin maxDepth) (p q : Place), first.Leads p ∧ Production (nested levels) kind p ts q ∧
    q.Leads last ∧ q.rest = after ∧ p.skipTrivia = p

/-- Between `p` and `q`, the trees and all that is in them are built by productions. -/
structure Yields (p : Place) (ts : List Tree) (q : Place) : Prop where
  reads : p.Reads ts q
  trees : first.Leads p → q.Leads last → Tree.AllWithin (BuiltBefore first last) ts q.rest

def MakesAt (r : Rule) (p : Place) : Prop := Yields first last p (r p).1 (r p).2

def Makes (r : Rule) : Prop := ∀ p, MakesAt first last r p

end

section

variable {first last : Place} {r : Rule} {rs : List Rule} {p q : Place} {ts : List Tree}

theorem Yields.append {s : Place} {us : List Tree} (h : Yields first last p ts q)
    (h' : Yields first last q us s) : Yields first last p (ts ++ us) s where
  reads := h.reads.append h'.reads
  trees hf hl := by
    have ht := h.trees hf (.trans ⟨us, h'.reads⟩ hl)
    rw [← h'.reads.leaves] at ht
    exact ht.append (h'.trees (hf.trans ⟨ts, h.reads⟩) hl)

theorem Yields.branch {levels : Fin maxDepth} {kind : Kind} (h : Yields first last p ts q)
    (hs : p.skipTrivia = p) (hp : Production (nested levels) kind p ts q) :
    Yields first last p [.branch kind ts] q where
  reads := .node hp.ne_root h.reads
  trees hf hl := .singleton (.branch ⟨levels, p, q, hf, hp, hl, rfl, hs⟩ (h.trees hf hl))

theorem yields_nil (h : p.Reads [] q) : Yields first last p [] q := ⟨h, by simp [Tree.AllWithin]⟩

theorem MakesAt.yields (h : MakesAt first last r p) (he : r p = (ts, q)) :
    Yields first last p ts q := by
  rwa [MakesAt, he] at h

theorem Yields.makesAt (h : Yields first last p ts q) (he : r p = (ts, q)) :
    MakesAt first last r p := by
  rwa [MakesAt, he]

theorem allWithin_of_leaves {P : Kind → List Tree → List Token → Prop} {after : List Token}
    (h : ∀ t ∈ ts, ∃ l, t = .leaf l) : Tree.AllWithin P ts after := by
  rintro us t vs rfl
  obtain ⟨l, rfl⟩ := h t (by simp)
  exact .leaf l _

theorem makes_of_flat (hr : r.Reads) (h : r.Flat) : Makes first last r :=
  fun p => ⟨hr p, fun _ _ => allWithin_of_leaves (h p)⟩

@[simp] theorem makes_trivia : Makes first last trivia := makes_of_flat reads_trivia flat_trivia

@[simp] theorem makes_token : Makes first last token := makes_of_flat reads_token flat_token

theorem makesAt_seq_cons (h : MakesAt first last r p)
    (hs : MakesAt first last (seq rs) (r p).2) : MakesAt first last (seq (r :: rs)) p :=
  Yields.append h hs

theorem makes_seq (h : ∀ r ∈ rs, Makes first last r) : Makes first last (seq rs) := by
  induction rs with
  | nil => exact fun p => yields_nil (.skip p)
  | cons r rs ih =>
    have hr : Makes first last r := h r (by simp)
    have hrs : Makes first last (seq rs) := ih fun r hm => h r (by simp [hm])
    exact fun p => makesAt_seq_cons (hr p) (hrs _)

theorem makesAt_seq (h : MakesAt first last r p) (hs : ∀ r ∈ rs, Makes first last r) :
    MakesAt first last (seq (r :: rs)) p :=
  makesAt_seq_cons h (makes_seq hs _)

theorem makes_report {problem : Problem} (h : problem ≠ .nestedTooDeeply) :
    Makes first last (report problem) :=
  fun p => yields_nil (reads_report h p)

theorem yields_skipTrivia (p : Place) : Yields first last p (trivia p).1 p.skipTrivia :=
  (makes_trivia p).yields (by rw [trivia_eq])

theorem makesAt_node {levels : Fin maxDepth} {kind : Kind}
    (hb : Body (nested levels) kind p.skipTrivia r) (h : MakesAt first last r p.skipTrivia) :
    MakesAt first last (node kind r) p := by
  have hy := (yields_skipTrivia p).append (h.branch p.skipTrivia_skipTrivia (.body hb rfl))
  exact hy.makesAt (by rw [node, trivia_eq])

theorem makesAt_congr {r' : Rule} (he : r' p = r p) (h : MakesAt first last r p) :
    MakesAt first last r' p := by
  rwa [MakesAt, he]

theorem makesAt_onlyIf {condition : Place → Bool}
    (h : condition p = true → MakesAt first last r p) :
    MakesAt first last (onlyIf condition r) p := by
  by_cases hc : condition p = true
  · exact makesAt_congr (if_pos hc) (h hc)
  · exact (yields_nil (.skip p)).makesAt (if_neg hc)

theorem makesAt_when {kind : Kind} (h : p.peek = some kind → MakesAt first last r p) :
    MakesAt first last («when» kind r) p :=
  makesAt_onlyIf fun hc => h (by simpa using hc)

theorem makesAt_ifPeek {kind : Kind} {problem : Problem} (hp : problem ≠ .nestedTooDeeply)
    (h : p.peek = some kind → MakesAt first last r p) :
    MakesAt first last (fun p => if p.peek = some kind then r p else report problem p) p := by
  by_cases hc : p.peek = some kind
  · exact makesAt_congr (if_pos hc) (h hc)
  · exact makesAt_congr (if_neg hc) (makes_report hp p)

@[simp] theorem makes_expect (kind : Kind) : Makes first last (expect kind) :=
  fun p => makesAt_ifPeek (by simp) fun _ => makes_token p

theorem makes_many {element : Place → Option Rule}
    (h : ∀ p r, element p = some r → MakesAt first last r p) : Makes first last (many element) := by
  suffices hm : ∀ clock, Makes first last (manyFrom element clock) from
    fun p => hm p.rest p
  intro clock
  induction clock with
  | nil => exact fun p => yields_nil (.skip p)
  | cons c clock ih =>
    intro p
    cases he : element p with
    | none => exact (yields_nil (.skip p)).makesAt (by simp [manyFrom, he])
    | some r =>
      have hs : MakesAt first last (seq [r, manyFrom element clock]) p :=
        makesAt_seq (h p r he) (by simpa using ih)
      apply makesAt_congr _ hs
      simp [manyFrom, he, seq_cons_apply, seq_nil_apply]

theorem makesAt_error {k : Kind} (hp : p.peek = some k) (he : p.errors ≠ []) :
    MakesAt first last (node .error token) p := by
  have hb : Body (nested (⟨0, maxDepth_pos⟩ : Fin maxDepth)) .error p.skipTrivia token :=
    .error (by simpa using hp) he
  exact makesAt_node hb (makes_token _)

theorem makesAt_remaining (he : p.errors ≠ []) :
    MakesAt first last (node .error remaining) p := by
  have hb : Body (nested (⟨0, maxDepth_pos⟩ : Fin maxDepth)) .error p.skipTrivia remaining := .remaining he
  exact makesAt_node hb (makes_of_flat reads_remaining flat_remaining _)

theorem makes_recover {problem : Problem} (h : problem ≠ .nestedTooDeeply) :
    Makes first last (recover problem) := by
  intro p
  refine makesAt_seq_cons (makes_report h p) (makesAt_seq (makesAt_onlyIf fun hc => ?_) (by simp))
  obtain ⟨k, hp, -⟩ := (Option.any_eq_true _ _).mp hc
  exact makesAt_error hp (p.report_not_clean problem)

theorem makes_giveUp : Makes first last giveUp := by
  intro p
  cases hp : p.gaveUp with
  | true => exact (yields_nil (.skip p)).makesAt (by simp [giveUp, hp])
  | false =>
    -- The place of the report is not one that a rule gets to, so only the leaves are known there.
    refine ⟨reads_giveUp p, fun hf hl => ?_⟩
    rw [giveUp_eq hp] at hl ⊢
    simp only [node, trivia_eq] at hl ⊢
    refine Tree.AllWithin.append (allWithin_of_leaves fun t ht => ?_) ?_
    · obtain ⟨l, -, rfl⟩ := List.mem_map.mp ht
      exact ⟨l, rfl⟩
    · have hr : remaining (p.skipTrivia.report .nestedTooDeeply).skipTrivia =
          remaining (p.report .nestedTooDeeply).skipTrivia := by
        rw [p.report_skipTrivia, Place.skipTrivia_skipTrivia]
      exact .singleton (.branch ⟨⟨0, maxDepth_pos⟩, p.skipTrivia, _, hf.trans p.leads_skipTrivia,
        .giveUp hp hr, hl, rfl, p.skipTrivia_skipTrivia⟩ (allWithin_of_leaves (flat_remaining _)))

end

theorem attr_eq (inner : Phrase → Rule) (p : Place) :
    ∃ r, Body inner .attr p.skipTrivia r ∧ attr inner p = node .attr r p := by
  simp only [attr, node, trivia_eq]
  split
  · exact ⟨token, .attrName (.inl (by assumption)), rfl⟩
  · exact ⟨token, .attrName (.inr (by assumption)), rfl⟩
  · exact ⟨string inner .quote, .attrString (by assumption), rfl⟩
  · exact ⟨hole inner .dynamic, .attrDynamic (by assumption), rfl⟩
  · refine ⟨report .noAttrName, .noAttr ?_, rfl⟩
    cases hp : p.skipTrivia.peek with
    | none => rfl
    | some k => cases k <;> first | rfl | simp_all

section

variable {first last : Place} {levels : Fin maxDepth} {p : Place}
  (h : ∀ phrase, Makes first last (nested levels phrase))

include h

theorem makesAt_hole {kind : Kind} (hk : kind = .interpolation ∨ kind = .dynamic)
    (hp : p.peek = some .dollarBrace) : MakesAt first last (hole (nested levels) kind) p :=
  makesAt_node (.hole hk (by simpa using hp)) (makes_seq (by simp [h]) _)

theorem makes_stringParts : Makes first last (many (stringPart (nested levels))) := by
  refine makes_many fun p r hr => ?_
  simp only [stringPart] at hr
  split at hr <;> cases hr
  · exact makes_token p
  · exact makesAt_hole h (.inl rfl) (by assumption)

theorem makesAt_string {opening : Kind} (ho : opening = .quote ∨ opening = .indentedQuote)
    (hp : p.peek = some opening) : MakesAt first last (string (nested levels) opening) p := by
  refine makesAt_node (.string ho (by simpa using hp)) (makes_seq ?_ _)
  have hc : Makes first last fun p =>
      if p.peek = some opening then token p else report .unterminatedString p :=
    fun p => makesAt_ifPeek (by simp) fun _ => makes_token p
  simp [makes_stringParts h, hc]

theorem makes_pathParts : Makes first last (many (pathPart (nested levels))) := by
  refine makes_many fun p r hr => ?_
  simp only [pathPart] at hr
  split at hr <;> cases hr
  · exact makes_token p
  · exact makesAt_hole h (.inl rfl) (Place.peek_of_head (by assumption) rfl)

theorem makes_attr : Makes first last (attr (nested levels)) := by
  intro p
  obtain ⟨r, hb, he⟩ := attr_eq (nested levels) p
  apply makesAt_congr he
  apply makesAt_node hb
  cases hb with
  | hole hk hp => simp at hk
  | attrName hp => exact makes_token _
  | attrString hp => exact makesAt_string h (.inl rfl) hp
  | attrDynamic hp => exact makesAt_hole h (.inr rfl) hp
  | noAttr hp => exact makes_report (by simp) _

theorem makes_attrPath : Makes first last (attrPath (nested levels)) := by
  intro p
  have hd : Makes first last
      (many fun p =>
        if dotAttrAhead p then some (seq [token, attr (nested levels)]) else none) := by
    refine makes_many fun p r hr => ?_
    obtain ⟨-, hr⟩ := Option.ite_none_right_eq_some.mp hr
    cases hr
    exact makes_seq (by simp [makes_attr h]) p
  exact makesAt_node .attrPath (makes_seq (by simp [makes_attr h, hd]) _)

theorem makes_inheritedNames : Makes first last (many (inheritedName (nested levels))) := by
  refine makes_many fun p r hr => ?_
  obtain ⟨hp, hr⟩ := Option.ite_none_right_eq_some.mp hr
  cases hr
  exact makesAt_node (.inheritedName (by simpa using hp)) (makes_attr h _)

theorem makes_inheritFrom :
    Makes first last («when» .leftParen (node .inheritFrom
      (seq [token, nested levels .expr, expect .rightParen]))) :=
  fun _ => makesAt_when fun hp =>
    makesAt_node (.inheritFrom (by simpa using hp)) (makes_seq (by simp [h]) _)

theorem makesAt_inherit (hp : p.peek = some .inheritKw) :
    MakesAt first last (inherit (nested levels)) p :=
  makesAt_node (.inherit (by simpa using hp))
    (makes_seq (by simp [makes_inheritFrom h, makes_inheritedNames h]) _)

theorem makesAt_attrPathValue (hp : p.peek.any Kind.startsAttr = true) :
    MakesAt first last (attrPathValue (nested levels)) p :=
  makesAt_node (.attrPathValue (by simpa using hp)) (makes_seq (by simp [h, makes_attrPath h]) _)

theorem makes_bindings (terminator : Kind) :
    Makes first last (many (binding (nested levels) terminator)) := by
  refine makes_many fun p r hr => ?_
  obtain ⟨k, hp, hr⟩ := Option.bind_eq_some_iff.mp hr
  split at hr
  · cases hr
  split at hr
  · rename_i hk
    cases hr
    exact makesAt_inherit h (hk ▸ hp)
  split at hr
  · rename_i hk
    cases hr
    exact makesAt_attrPathValue h (by simp [hp, hk])
  split at hr
  · cases hr
  · cases hr
    exact makesAt_seq_cons (makes_report (by simp) p)
      (makesAt_seq (makesAt_error (by simpa [report_apply] using hp) (p.report_not_clean _))
        (by simp))

theorem makesAt_attrSet (hp : p.peek = some .leftBrace ∨ p.peek = some .recKw) :
    MakesAt first last (attrSet (nested levels)) p := by
  have hr : Makes first last («when» .recKw token) := fun p => makesAt_when fun _ => makes_token p
  exact makesAt_node (.attrSet (by simpa using hp))
    (makes_seq (by simp [hr, makes_bindings h]) _)

theorem makes_dotPath : Makes first last (seq [token, attrPath (nested levels)]) :=
  makes_seq (by simp [makes_attrPath h])

theorem Selection.yields {q : Place} {ts : List Tree} (hp : p.skipTrivia = p)
    (hs : Selection (nested levels) p ts q) : Yields first last p ts q := by
  induction hs with
  | @atom p q ts ha hd => exact (h .atom p).yields ha
  | @path p q s ts us ha hd hs ho =>
    have ht := ((h .atom p).yields ha).append ((makes_dotPath h q).yields hs)
    exact ht.branch hp (.select ha hd hs ho)
  | @fallback p q s u ts us vs ha hd hs ho hf ih =>
    have ht := ((h .atom p).yields ha).append ((makes_dotPath h q).yields hs)
    have hv := ih (Place.skipTrivia_skipTrivia _)
    have hu := ((ht.append (makes_token s)).append (yields_skipTrivia _)).append hv
    exact hu.branch hp (.selectOr ha hd hs ho hf)
  | @broken p q s ts us ha hs hd =>
    have he : MakesAt first last (seq [report .noAttrAfterDot, node .error token]) q :=
      makesAt_seq_cons (makes_report (by simp) q)
        (makesAt_seq (makesAt_error (by simpa [report_apply] using hd) (q.report_not_clean _))
          (by simp))
    exact ((h .atom p).yields ha).append (he.yields hs)

theorem Application.yields {q : Place} {ts : List Tree} (hp : p.skipTrivia = p)
    (ha : Application (nested levels) p ts q) : Yields first last p ts q := by
  induction ha with
  | selection hs => exact hs.yields h hp
  | apply hf ha hs ih =>
    have hy := hs.yields h (Place.skipTrivia_skipTrivia _)
    exact ((ih.append (yields_skipTrivia _)).append hy).branch hp (.apply hf ha hs)

theorem Operation.yields {q : Place} {power : Nat} {ts : List Tree} (hp : p.skipTrivia = p)
    (ho : Operation (nested levels) power p ts q) : Yields first last p ts q := by
  induction ho with
  | @unary power r p q ts hu hs =>
    have hm : Makes first last (seq [token, nested levels (.operand r)]) := makes_seq (by simp [h])
    exact ((hm p).yields hs).branch hp (.body (.unaryOp hu) hs)
  | application ha => exact ha.yields h hp
  | hasAttr hl hk hpow hs ih =>
    exact ((ih hp).append ((makes_dotPath h _).yields hs)).branch hp (.hasAttr hl hk hs)
  | binaryOp hl hk hb hpow hr hs ih ih' =>
    have hright := ih' (Place.skipTrivia_skipTrivia _)
    have ht := (((ih hp).append (makes_token _)).append (yields_skipTrivia _)).append hright
    exact ht.branch hp (.binaryOp hl hk hb hr hs)

variable (hc : first.Consistent)

omit h in
include hc in
theorem makesAt_of_consistent {r : Rule} (hr : r.Reads)
    (hm : p.Consistent → MakesAt first last r p) : MakesAt first last r p :=
  ⟨hr p, fun hf => (hm (hf.consistent hc)).trees hf⟩

include hc

theorem makes_select : Makes first last (select (nested levels)) := by
  intro p
  apply makesAt_of_consistent hc (reads_select (reads_nested levels))
  intro hp
  obtain ⟨ts, q, he, hs⟩ := selection_select (reads_nested levels) hp
  exact ((yields_skipTrivia p).append (hs.yields h p.skipTrivia_skipTrivia)).makesAt he

theorem makes_operand (power : Nat) : Makes first last (operand (nested levels) power) := by
  intro p
  apply makesAt_of_consistent hc (reads_operand (reads_nested levels) power)
  intro hp
  obtain ⟨ts, q, he, ho, -⟩ := operation_operand (reads_nested levels) (starts_nested levels) hp
  exact ((yields_skipTrivia p).append (ho.yields h p.skipTrivia_skipTrivia)).makesAt he

theorem makesAt_list (hp : p.peek = some .leftBracket) :
    MakesAt first last (list (nested levels)) p := by
  have he : Makes first last (many (listElement (nested levels))) := by
    refine makes_many fun p r hr => ?_
    obtain ⟨k, -, hr⟩ := Option.bind_eq_some_iff.mp hr
    split at hr
    · cases hr
      exact makes_select h hc p
    split at hr
    · cases hr
    · cases hr
      exact makes_recover (by simp) p
  exact makesAt_node (.list (by simpa using hp)) (makes_seq (by simp [he]) _)

omit h hc in
theorem makesAt_paramName (hp : p.peek = some .ident) : MakesAt first last paramName p := by
  have hb : Body (nested (⟨0, maxDepth_pos⟩ : Fin maxDepth)) .paramName p.skipTrivia token :=
    .paramName (by simpa using hp)
  exact makesAt_node hb (makes_token _)

omit hc in
theorem makesAt_formal {k : Kind} (hp : p.peek = some k) :
    MakesAt first last (formal (nested levels) k) p := by
  simp only [formal]
  split
  · exact makes_token p
  · have hd : Makes first last («when» .question (seq [token, nested levels .expr])) :=
      fun p => makesAt_when fun _ => makes_seq (by simp [h]) p
    rw [← Place.peek_skipTrivia] at hp
    exact makesAt_node (.patternEntry hp) (makesAt_seq (makesAt_paramName hp) (by simp [hd]))
  · exact makes_recover (by simp) p

omit hc in
theorem makes_formals : Makes first last (formals (nested levels)) := by
  suffices hm : ∀ clock, Makes first last (formalsFrom (nested levels) clock) from
    fun p => hm p.rest p
  intro clock
  induction clock with
  | nil => exact fun p => yields_nil (.skip p)
  | cons c clock ih =>
    have hn : Makes first last («when» .comma (seq [token, formalsFrom (nested levels) clock])) :=
      fun p => makesAt_when fun _ => makes_seq (by simp [ih]) p
    intro p
    rw [MakesAt, formalsFrom]
    dsimp only
    split
    · exact yields_nil (.skip p)
    · exact yields_nil (.skip p)
    · exact makesAt_seq (makesAt_formal h (by assumption)) (by simp [hn])

omit hc in
theorem makesAt_pattern (hp : p.peek = some .leftBrace ∨ p.peek = some .ident) :
    MakesAt first last (pattern (nested levels)) p := by
  have hb : Makes first last
      («when» .ident (node .patternBind (seq [paramName, expect .atSign]))) := by
    refine fun p => makesAt_when fun hp => ?_
    rw [← Place.peek_skipTrivia] at hp
    have hb : Body (nested levels) .patternBind p.skipTrivia _ := .bindBefore hp
    exact makesAt_node hb (makesAt_seq (makesAt_paramName hp) (by simp))
  have hn : Makes first last («when» .atSign patternName) := by
    refine fun p => makesAt_when fun hp => ?_
    rw [← Place.peek_skipTrivia] at hp
    have hb : Body (nested levels) .patternBind p.skipTrivia _ := .bindAfter hp
    refine makesAt_node hb (makesAt_seq (makes_token _) ?_)
    have hi : Makes first last fun p =>
        if p.peek = some .ident then paramName p else report .noBindName p :=
      fun p => makesAt_ifPeek (by simp) fun hp => makesAt_paramName hp
    simpa using hi
  exact makesAt_node (.pattern (by simpa using hp))
    (makes_seq (by simp [hb, hn, makes_formals h]) _)

omit hc in
theorem makesAt_patternLambda (hp : p.peek = some .leftBrace ∨ p.peek = some .ident) :
    MakesAt first last (patternLambda (nested levels)) p := by
  rw [← Place.peek_skipTrivia] at hp
  exact makesAt_node (.patternLambda hp) (makesAt_seq (makesAt_pattern h hp) (by simp [h]))

omit hc in
theorem makesAt_nameLambda (hp : p.peek = some .ident) (hk : p.ahead 1 = some .colon) :
    MakesAt first last (nameLambda (nested levels)) p := by
  rw [← Place.peek_skipTrivia] at hp
  rw [← Place.ahead_skipTrivia] at hk
  exact makesAt_node (.nameLambda hp hk) (makesAt_seq (makesAt_paramName hp) (by simp [h]))

theorem makes_expr : Makes first last (expr (nested levels)) := by
  intro p
  rw [MakesAt, expr]
  split
  · exact makesAt_node (.letIn (by simpa)) (makes_seq (by simp [h, makes_bindings h]) _)
  · exact makesAt_node (.withIn (by simpa)) (makes_seq (by simp [h]) _)
  · exact makesAt_node (.assert (by simpa)) (makes_seq (by simp [h]) _)
  · exact makesAt_node (.ifElse (by simpa)) (makes_seq (by simp [h]) _)
  · rename_i hp
    split
    · exact makesAt_nameLambda h hp (by assumption)
    split
    · exact makesAt_patternLambda h (.inr hp)
    · exact makes_operand h hc 0 p
  · rename_i hp
    split
    · exact makesAt_patternLambda h (.inl hp)
    · exact makes_operand h hc 0 p
  · exact makes_operand h hc 0 p

theorem makes_atom : Makes first last (atom (nested levels)) := by
  intro p
  have hlit : ∀ {k : Kind}, p.peek = some k → k ∈ [.integer, .float, .path, .searchPath, .uri] →
      MakesAt first last (node .literal token) p := by
    intro k hp hk
    have hb : Body (nested levels) .literal p.skipTrivia token := .literal hk (by simpa using hp)
    exact makesAt_node hb (makes_token _)
  rw [MakesAt, atom]
  split
  · have hb : Body (nested levels) .var p.skipTrivia token := .var (by simpa)
    exact makesAt_node hb (makes_token _)
  iterate 5 · exact hlit (by assumption) (by decide)
  · exact makesAt_string h (.inl rfl) (by assumption)
  · exact makesAt_string h (.inr rfl) (by assumption)
  · exact makesAt_node (.interpolatedPath (by simpa)) (makes_seq (by simp [makes_pathParts h]) _)
  · exact makesAt_node (.paren (by simpa)) (makes_seq (by simp [h]) _)
  · exact makesAt_list h hc (by assumption)
  · exact makesAt_attrSet h (.inl (by assumption))
  · exact makesAt_attrSet h (.inr (by assumption))
  iterate 4 · exact h .expr p
  · exact makes_recover (by simp) p

end

theorem makes_nested {first last : Place} (hc : first.Consistent) {levels : Nat}
    (hl : levels ≤ maxDepth) (phrase : Phrase) : Makes first last (nested levels phrase) := by
  induction levels generalizing phrase with
  | zero => exact makes_giveUp
  | succ levels ih =>
    have ih : ∀ phrase, Makes first last (nested (⟨levels, hl⟩ : Fin maxDepth) phrase) :=
      ih (Nat.le_of_lt hl)
    have hexpr := makes_expr ih hc
    have hatom := makes_atom ih hc
    cases phrase with
    | expr => exact hexpr
    | atom => exact hatom
    | operand power =>
      have hoperand := makes_operand ih hc power
      exact hoperand

theorem makes_file {first last : Place} (hc : first.Consistent) : Makes first last file := by
  have he : Makes first last (onlyIf (fun p => p.peek.isSome) (nested maxDepth .expr)) :=
    fun p => makesAt_onlyIf fun _ => makes_nested hc (Nat.le_refl _) .expr p
  have ht : Makes first last (onlyIf (fun p => p.peek.isSome)
      (seq [report .trailingInput, node .error remaining])) :=
    fun p => makesAt_onlyIf fun _ => makesAt_seq_cons (makes_report (by simp) p)
      (makesAt_seq (makesAt_remaining (p.report_not_clean _)) (by simp))
  exact makes_seq (by simp [he, ht])

end Grammar

theorem Parse.allWithin_content (tokens : List Token) : Tree.AllWithin
    (Grammar.BuiltBefore (.start tokens) (Grammar.file (.start tokens)).2)
    (ofTokens tokens).content (Grammar.file (.start tokens)).2.rest := by
  have hm : Grammar.MakesAt (.start tokens) (Grammar.file (.start tokens)).2 Grammar.file _ :=
    Grammar.makes_file (Place.consistent_start tokens) (.start tokens)
  exact hm.trees (.refl _) (.refl _)

theorem Parse.everywhere_content {P : Kind → List Tree → Prop} (tokens : List Token)
    (h : ∀ k ts, Grammar.Built (.start tokens) (Grammar.file (.start tokens)).2 k ts → P k ts)
    {t : Tree} (ht : t ∈ (ofTokens tokens).content) : t.Everywhere P := by
  obtain ⟨us, vs, he⟩ := List.append_of_mem ht
  refine ((allWithin_content tokens us t vs he).mono ?_).everywhere
  rintro k ts after ⟨levels, p, q, hf, hp, hl, -, hs⟩
  exact h k ts ⟨levels, p, q, ⟨hf, hs⟩, hp, hl⟩

/-- What holds of the root and of all nodes that productions build holds everywhere in a parse. -/
theorem Parse.everywhere_root {P : Kind → List Tree → Prop} (tokens : List Token)
    (hr : P .root (ofTokens tokens).content)
    (h : ∀ k ts, Grammar.Built (.start tokens) (Grammar.file (.start tokens)).2 k ts → P k ts) :
    (ofTokens tokens).root.tree.Everywhere P := by
  rw [Parse.root, Node.tree_root]
  exact .branch hr fun t ht => everywhere_content tokens h ht

theorem Parse.everywhere_of_ne_root {P : Kind → List Tree → Prop} (tokens : List Token)
    (h : ∀ k ts, Grammar.Built (.start tokens) (Grammar.file (.start tokens)).2 k ts → P k ts)
    {n : Node} (hn : n ∈ (ofTokens tokens).root.descendants) (hr : n ≠ (ofTokens tokens).root) :
    n.tree.Everywhere P := by
  obtain rfl | ⟨t, ht, hw⟩ := Node.mem_descendants.mp hn
  · exact absurd rfl hr
  · have hc : (ofTokens tokens).root.children.map PlacedTree.tree = (ofTokens tokens).content :=
      Tree.tree_placeAll 0 0 _
    have hm := List.mem_map_of_mem (f := PlacedTree.tree) ht
    rw [hc] at hm
    exact PlacedTree.everywhere_of_mem_walk (everywhere_content tokens h hm) hw

end NixScope.Syntax
