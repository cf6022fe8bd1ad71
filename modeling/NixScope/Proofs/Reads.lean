import NixScope.Proofs.Place
import NixScope.Proofs.Tree
import NixScope.Syntax.Grammar

/-!
What any rule of the grammar can do, said once. A rule reads tokens from the front, reports
problems, and puts what it reads under nodes. Every invariant of whole parses is an induction on
this relation.
-/

namespace NixScope.Syntax

/-- From the place `p` some rule builds the trees and goes on at the second place. No rule builds a
root. The nesting limit is reported only where a rule gives up. -/
inductive Place.Reads : Place → List Tree → Place → Prop
  | skip (p : Place) : Reads p [] p
  | report (p : Place) {problem : Problem} (h : problem ≠ .nestedTooDeeply) :
      Reads p [] (p.report problem)
  | leaf {p : Place} {t : Token} {rest : List Token} (h : p.rest = t :: rest) :
      Reads p [.leaf t] { p with rest, offset := p.offset + t.width }
  | node {p q : Place} {ts : List Tree} {kind : Kind} (hk : kind ≠ .root) (h : Reads p ts q) :
      Reads p [.branch kind ts] q
  | append {p q s : Place} {ts us : List Tree} (h : Reads p ts q) (h' : Reads q us s) :
      Reads p (ts ++ us) s
  | giveUp {p : Place} (hp : p.gaveUp = false)
      (h : Reads (p.report .nestedTooDeeply) (Rule.giveUp p).1 (Rule.giveUp p).2) :
      Reads p (Rule.giveUp p).1 (Rule.giveUp p).2

namespace Place.Reads

variable {p q : Place} {ts : List Tree}

/-- No token is lost, repeated, moved or changed. -/
theorem leaves (h : Reads p ts q) : Rose.leavesOf ts ++ q.rest = p.rest := by
  induction h with
  | skip p => rfl
  | report p h => simp [Rose.leavesOf]
  | leaf h => simp [Rose.leavesOf, Rose.leaves, h]
  | node hk h ih => simpa [Rose.leavesOf, Rose.leaves] using ih
  | append h h' ih ih' => rw [Rose.leavesOf_append, List.append_assoc, ih', ih]
  | giveUp hp h ih => simpa using ih

theorem rest_length_le (h : Reads p ts q) : q.rest.length ≤ p.rest.length := by
  rw [← h.leaves, List.length_append]
  omega

theorem rest_eq_or_lt (h : Reads p ts q) : q.rest = p.rest ∨ q.rest.length < p.rest.length := by
  have hl := h.leaves
  cases hs : Rose.leavesOf ts with
  | nil =>
    rw [hs, List.nil_append] at hl
    exact .inl hl
  | cons t us =>
    right
    rw [← hl, hs, List.length_append, List.length_cons]
    omega

theorem errors_suffix (h : Reads p ts q) : p.errors <:+ q.errors := by
  induction h with
  | skip p => exact List.suffix_refl _
  | report p h => exact p.errors_report _
  | leaf h => exact List.suffix_refl _
  | node hk h ih => exact ih
  | append h h' ih ih' => exact ih.trans ih'
  | giveUp hp h ih => exact (Place.errors_report _ _).trans ih

end Place.Reads

namespace Rule

/-- The rule does nothing else than reading. -/
def Reads (r : Rule) : Prop := ∀ p, Place.Reads p (r p).1 (r p).2

/-- The rule gets to its last place by reading, whatever trees it gives. -/
def Moves (r : Rule) : Prop := ∀ p, ∃ ts, Place.Reads p ts (r p).2

/-- The rule goes on from trees that were read before it. -/
structure ReadsOn (f : List Tree → Rule) : Prop where
  moves : ∀ ts, (f ts).Moves
  reads : ∀ {p ts q}, Place.Reads p ts q → Place.Reads p (f ts q).1 (f ts q).2

theorem Reads.moves {r : Rule} (h : r.Reads) : r.Moves := fun p => ⟨(r p).1, h p⟩

@[simp] theorem reads_skip : skip.Reads := fun p => .skip p

theorem reads_seq {rs : List Rule} (h : ∀ r ∈ rs, r.Reads) : (seq rs).Reads := by
  induction rs with
  | nil => exact reads_skip
  | cons r rs ih =>
    have hr : r.Reads := h r (by simp)
    have hrs : (seq rs).Reads := ih fun r hm => h r (by simp [hm])
    exact fun p => (hr p).append (hrs _)

@[simp] theorem reads_leaf : leaf.Reads := by
  intro p
  rw [leaf]
  split
  · exact .skip p
  · rename_i t rest h
    exact .leaf h

theorem reads_triviaIn (ts : List Token) (offset : Nat) (errors : List Error) :
    Place.Reads ⟨ts, offset, errors⟩ (triviaIn ts offset errors).1
      (triviaIn ts offset errors).2 := by
  induction ts generalizing offset with
  | nil => exact .skip _
  | cons t ts ih =>
    rw [triviaIn]
    split
    · exact (Place.Reads.leaf rfl).append (ih _)
    · exact .skip _

@[simp] theorem reads_trivia : trivia.Reads := fun p => reads_triviaIn p.rest p.offset p.errors

@[simp] theorem reads_token : token.Reads := reads_seq (by simp)

theorem reads_report {problem : Problem} (h : problem ≠ .nestedTooDeeply) :
    (report problem).Reads := fun p => .report p h

theorem reads_node {kind : Kind} {r : Rule} (hk : kind ≠ .root) (h : r.Reads) :
    (node kind r).Reads :=
  fun p => (reads_trivia p).append (.node hk (h _))

theorem reads_onlyIf {r : Rule} (condition : Place → Bool) (h : r.Reads) :
    (onlyIf condition r).Reads := by
  intro p
  rw [onlyIf]
  split
  · exact h p
  · exact .skip p

theorem reads_when {r : Rule} (kind : Kind) (h : r.Reads) : («when» kind r).Reads :=
  reads_onlyIf _ h

theorem reads_ifPeek {r : Rule} {kind : Kind} {problem : Problem} (h : r.Reads)
    (hp : problem ≠ .nestedTooDeeply) :
    Rule.Reads fun p => if p.peek = some kind then r p else report problem p := by
  intro p
  dsimp only
  split
  · exact h p
  · exact reads_report hp p

@[simp] theorem reads_expect (kind : Kind) : (expect kind).Reads :=
  reads_ifPeek reads_token (by simp)

theorem reads_manyFrom {element : Place → Option Rule} (h : ∀ p r, element p = some r → r.Reads)
    (clock : List Token) : (manyFrom element clock).Reads := by
  induction clock with
  | nil => exact fun p => .skip p
  | cons c clock ih =>
    intro p
    rw [manyFrom]
    split
    · exact .skip p
    · rename_i r hr
      exact (h p r hr p).append (ih _)

theorem reads_many {element : Place → Option Rule} (h : ∀ p r, element p = some r → r.Reads) :
    (many element).Reads :=
  fun p => reads_manyFrom h p.rest p

theorem reads_andThen {first : Rule} {second : List Tree → Rule} (h : first.Reads)
    (h' : ReadsOn second) : (first.andThen second).Reads :=
  fun p => h'.reads (h p)

theorem readsOn_wrap {kind : Kind} {r : Rule} (hk : kind ≠ .root) (h : r.Reads) :
    ReadsOn fun left => wrap kind left r where
  moves _ q := ⟨(r q).1, h q⟩
  reads hl := .node hk (hl.append (h _))

theorem readsOn_stop : ReadsOn fun left p => (left, p) where
  moves _ q := ⟨[], .skip q⟩
  reads hl := hl

theorem moves_andThen {first : Rule} {second : List Tree → Rule} (h : first.Moves)
    (h' : ∀ ts, (second ts).Moves) : (first.andThen second).Moves := by
  intro p
  obtain ⟨ts, ht⟩ := h p
  obtain ⟨us, hu⟩ := h' (first p).1 (first p).2
  exact ⟨ts ++ us, ht.append hu⟩

theorem readsOn_andThen {first second : List Tree → Rule} (h : ReadsOn first)
    (h' : ReadsOn second) : ReadsOn fun ts => (first ts).andThen second where
  moves ts := moves_andThen (h.moves ts) h'.moves
  reads hl := h'.reads (h.reads hl)

theorem readsOn_of_cases {f : List Tree → Rule}
    (h : ∀ q, ∃ g, ReadsOn g ∧ ∀ ts, f ts q = g ts q) : ReadsOn f where
  moves ts q := by
    obtain ⟨g, hg, he⟩ := h q
    rw [he ts]
    exact hg.moves ts q
  reads {p ts q} hl := by
    obtain ⟨g, hg, he⟩ := h q
    rw [he ts]
    exact hg.reads hl

theorem readsOn_counted {f : List Token → List Tree → Rule} (hf : ∀ clock, ReadsOn (f clock)) :
    ReadsOn fun ts p => f p.rest ts p :=
  readsOn_of_cases fun q => ⟨f q.rest, hf q.rest, fun _ => rfl⟩

@[simp] theorem reads_remaining : remaining.Reads := by
  refine reads_many fun p r hr => ?_
  obtain ⟨k, -, rfl⟩ := Option.map_eq_some_iff.mp hr
  exact reads_token

theorem reads_recover {problem : Problem} (h : problem ≠ .nestedTooDeeply) :
    (recover problem).Reads := by
  refine reads_seq ?_
  have he : (node .error token).Reads := reads_node (by simp) reads_token
  simpa using ⟨reads_report h, reads_onlyIf _ he⟩

@[simp] theorem reads_giveUp : giveUp.Reads := by
  intro p
  cases hp : p.gaveUp with
  | true =>
    rw [giveUp, if_pos hp]
    exact .skip p
  | false =>
    refine .giveUp hp ?_
    rw [giveUp, if_neg (by simp [hp])]
    have he : (node .error remaining).Reads := reads_node (by simp) reads_remaining
    exact (he (p.report .nestedTooDeeply)).append (.skip _)

end Rule

namespace Grammar

open Rule

variable {inner : Phrase → Rule} (h : ∀ phrase, (inner phrase).Reads)

include h

theorem reads_hole {kind : Kind} (hk : kind ≠ .root) : (hole inner kind).Reads :=
  reads_node hk (reads_seq (by simp [h]))

theorem reads_stringPart {p : Place} {r : Rule} (hr : stringPart inner p = some r) : r.Reads := by
  rw [stringPart] at hr
  split at hr <;> cases hr
  · exact reads_token
  · exact reads_hole h (by simp)

theorem reads_stringParts : (many (stringPart inner)).Reads :=
  reads_many fun _ _ => reads_stringPart h

theorem reads_string (opening : Kind) : (string inner opening).Reads :=
  reads_node (by simp) (reads_seq (by simp [reads_stringParts h, reads_ifPeek]))

theorem reads_pathPart {p : Place} {r : Rule} (hr : pathPart inner p = some r) : r.Reads := by
  rw [pathPart] at hr
  split at hr <;> cases hr
  · exact reads_token
  · exact reads_hole h (by simp)

theorem reads_pathParts : (many (pathPart inner)).Reads := reads_many fun _ _ => reads_pathPart h

theorem reads_interpolatedPath : (interpolatedPath inner).Reads :=
  reads_node (by simp) (reads_seq (by simp [reads_pathParts h]))

theorem reads_attr : (attr inner).Reads := by
  refine reads_node (by simp) fun p => ?_
  split
  · exact reads_token p
  · exact reads_token p
  · exact reads_string h .quote p
  · exact reads_hole h (by simp) p
  · exact reads_report (by simp) p

theorem reads_dotAttr {p : Place} {r : Rule}
    (hr : (if dotAttrAhead p then some (seq [token, attr inner]) else none) = some r) :
    r.Reads := by
  obtain ⟨-, hr⟩ := Option.ite_none_right_eq_some.mp hr
  cases hr
  exact reads_seq (by simp [reads_attr h])

theorem reads_dotAttrs :
    (many fun p => if dotAttrAhead p then some (seq [token, attr inner]) else none).Reads :=
  reads_many fun _ _ => reads_dotAttr h

theorem reads_attrPath : (attrPath inner).Reads :=
  reads_node (by simp) (reads_seq (by simp [reads_attr h, reads_dotAttrs h]))

theorem reads_dotPath : (seq [token, attrPath inner]).Reads :=
  reads_seq (by simp [reads_attrPath h])

theorem reads_inheritedName {p : Place} {r : Rule} (hr : inheritedName inner p = some r) :
    r.Reads := by
  obtain ⟨-, hr⟩ := Option.ite_none_right_eq_some.mp hr
  cases hr
  exact reads_node (by simp) (reads_attr h)

theorem reads_inheritedNames : (many (inheritedName inner)).Reads :=
  reads_many fun _ _ => reads_inheritedName h

theorem reads_inheritFrom :
    («when» .leftParen (node .inheritFrom (seq [token, inner .expr, expect .rightParen]))).Reads :=
  reads_when _ (reads_node (by simp) (reads_seq (by simp [h])))

theorem reads_inherit : (inherit inner).Reads :=
  reads_node (by simp) (reads_seq (by simp [reads_inheritFrom h, reads_inheritedNames h]))

theorem reads_attrPathValue : (attrPathValue inner).Reads :=
  reads_node (by simp) (reads_seq (by simp [h, reads_attrPath h]))

theorem reads_binding {terminator : Kind} {p : Place} {r : Rule}
    (hr : binding inner terminator p = some r) : r.Reads := by
  obtain ⟨kind, -, hr⟩ := Option.bind_eq_some_iff.mp hr
  have he : (node .error token).Reads := reads_node (by simp) reads_token
  have hb : (report .noBinding).Reads := reads_report (by simp)
  split at hr
  · cases hr
  split at hr
  · cases hr
    exact reads_inherit h
  split at hr
  · cases hr
    exact reads_attrPathValue h
  split at hr
  · cases hr
  · cases hr
    exact reads_seq (by simp [he, hb])

theorem reads_bindings (terminator : Kind) : (many (binding inner terminator)).Reads :=
  reads_many fun _ _ => reads_binding h

theorem reads_attrSet : (attrSet inner).Reads :=
  reads_node (by simp) (reads_seq (by simp [reads_when _ reads_token, reads_bindings h]))

theorem readsOn_selectTail {fallback : Rule} (hf : fallback.Reads) :
    ReadsOn (selectTail inner fallback) := by
  have he : (node .error token).Reads := reads_node (by simp) reads_token
  have hr : (report .noAttrAfterDot).Reads := reads_report (by simp)
  have ho : («when» .orKw (seq [token, fallback])).Reads :=
    reads_when _ (reads_seq (by simp [hf]))
  have ht : (seq [report .noAttrAfterDot, node .error token]).Reads := reads_seq (by simp [he, hr])
  apply readsOn_of_cases
  intro q
  simp only [selectTail]
  split
  · exact ⟨_, readsOn_stop, fun _ => rfl⟩
  split
  · exact ⟨_, readsOn_wrap (by simp) (reads_seq (by simp [ho, reads_attrPath h])), fun _ => rfl⟩
  · refine ⟨fun base => seq [fun p => (base, p), report .noAttrAfterDot, node .error token],
      ⟨fun _ q => ⟨_, ht q⟩, fun hl => hl.append (ht _)⟩, fun _ => rfl⟩

theorem reads_selectFrom (clock : List Token) : (selectFrom inner clock).Reads := by
  induction clock with
  | nil => exact reads_seq (by simp [h])
  | cons c clock ih =>
    exact reads_seq (by simp [reads_andThen (h .atom) (readsOn_selectTail h ih)])

theorem reads_select : (select inner).Reads := fun p => reads_selectFrom h p.rest p

theorem readsOn_applyFrom (clock : List Token) : ReadsOn (applyFrom inner clock) := by
  induction clock with
  | nil => exact readsOn_stop
  | cons c clock ih =>
    apply readsOn_of_cases
    intro q
    simp only [applyFrom]
    split
    · exact ⟨_, readsOn_andThen (readsOn_wrap (by simp) (reads_select h)) ih, fun _ => rfl⟩
    · exact ⟨_, readsOn_stop, fun _ => rfl⟩

theorem reads_application : (application inner).Reads := by
  have ha := reads_andThen (reads_select h) (readsOn_counted (readsOn_applyFrom h))
  exact reads_seq (by simp [ha])

theorem reads_listElement {p : Place} {r : Rule} (hr : listElement inner p = some r) : r.Reads := by
  obtain ⟨kind, -, hr⟩ := Option.bind_eq_some_iff.mp hr
  split at hr
  · cases hr
    exact reads_select h
  split at hr
  · cases hr
  · cases hr
    exact reads_recover (by simp)

theorem reads_listElements : (many (listElement inner)).Reads :=
  reads_many fun _ _ => reads_listElement h

theorem reads_list : (list inner).Reads :=
  reads_node (by simp) (reads_seq (by simp [reads_listElements h]))

theorem reads_leftmost : (leftmost inner).Reads := by
  intro p
  rw [leftmost]
  split
  · exact reads_node (by simp) (reads_seq (by simp [h])) p
  · exact reads_application h p

theorem readsOn_operatorsFrom (clock : List Token) (power : Nat) :
    ReadsOn (operatorsFrom inner clock power) := by
  induction clock generalizing power with
  | nil => exact readsOn_stop
  | cons c clock ih =>
    apply readsOn_of_cases
    intro q
    simp only [operatorsFrom]
    split
    · split
      · exact ⟨_, readsOn_stop, fun _ => rfl⟩
      · have ha := reads_dotPath h
        exact ⟨_, readsOn_andThen (readsOn_wrap (by simp) ha) (ih power), fun _ => rfl⟩
    · split
      · exact ⟨_, readsOn_stop, fun _ => rfl⟩
      · rename_i leftPower rightPower hp
        split
        · exact ⟨_, readsOn_stop, fun _ => rfl⟩
        · have hr := reads_andThen (reads_leftmost h) (ih rightPower)
          have hs : (seq [token, trivia,
              (leftmost inner).andThen (operatorsFrom inner clock rightPower)]).Reads :=
            reads_seq (by simp [hr])
          exact ⟨_, readsOn_andThen (readsOn_wrap (by simp) hs) (ih power), fun _ => rfl⟩

theorem reads_operand (power : Nat) : (operand inner power).Reads := by
  have ho := reads_andThen (reads_leftmost h)
    (readsOn_counted fun clock => readsOn_operatorsFrom h clock power)
  exact reads_seq (by simp [ho])

omit h in
@[simp] theorem reads_paramName : paramName.Reads := reads_node (by simp) reads_token

theorem reads_formal (kind : Kind) : (formal inner kind).Reads := by
  unfold formal
  split
  · exact reads_token
  · have hd : («when» .question (seq [token, inner .expr])).Reads :=
      reads_when _ (reads_seq (by simp [h]))
    exact reads_node (by simp) (reads_seq (by simp [hd]))
  · exact reads_recover (by simp)

theorem reads_formalsFrom (clock : List Token) : (formalsFrom inner clock).Reads := by
  induction clock with
  | nil => exact reads_skip
  | cons c clock ih =>
    have hc : («when» .comma (seq [token, formalsFrom inner clock])).Reads :=
      reads_when _ (reads_seq (by simp [ih]))
    intro p
    unfold formalsFrom
    split
    · exact .skip p
    · exact .skip p
    · exact reads_seq (by simp [hc, reads_formal h]) p

theorem reads_formals : (formals inner).Reads := fun p => reads_formalsFrom h p.rest p

omit h in
@[simp] theorem reads_patternName : patternName.Reads :=
  reads_node (by simp) (reads_seq (by simp [reads_ifPeek]))

theorem reads_pattern : (pattern inner).Reads := by
  refine reads_node (by simp) (reads_seq ?_)
  have hb : (node .patternBind (seq [paramName, expect .atSign])).Reads :=
    reads_node (by simp) (reads_seq (by simp))
  simpa using ⟨reads_when _ hb, reads_formals h, reads_when _ reads_patternName⟩

theorem reads_patternLambda : (patternLambda inner).Reads :=
  reads_node (by simp) (reads_seq (by simp [h, reads_pattern h]))

theorem reads_nameLambda : (nameLambda inner).Reads :=
  reads_node (by simp) (reads_seq (by simp [h]))

theorem reads_statement {kind : Kind} (hk : kind ≠ .root) : (statement inner kind).Reads :=
  reads_node hk (reads_seq (by simp [h]))

theorem reads_ifElse : (ifElse inner).Reads := reads_node (by simp) (reads_seq (by simp [h]))

theorem reads_letIn : (letIn inner).Reads :=
  reads_node (by simp) (reads_seq (by simp [h, reads_bindings h]))

theorem reads_expr : (expr inner).Reads := by
  intro p
  rw [expr]
  split
  · exact reads_letIn h p
  · exact reads_statement h (by simp) p
  · exact reads_statement h (by simp) p
  · exact reads_ifElse h p
  · split
    · exact reads_nameLambda h p
    split
    · exact reads_patternLambda h p
    · exact reads_operand h 0 p
  · split
    · exact reads_patternLambda h p
    · exact reads_operand h 0 p
  · exact reads_operand h 0 p

theorem reads_atom : (atom inner).Reads := by
  intro p
  rw [atom]
  split
  · exact reads_node (by simp) reads_token p
  iterate 5 · exact reads_node (by simp) reads_token p
  · exact reads_string h .quote p
  · exact reads_string h .indentedQuote p
  · exact reads_interpolatedPath h p
  · exact reads_node (by simp) (reads_seq (by simp [h])) p
  · exact reads_list h p
  iterate 2 · exact reads_attrSet h p
  iterate 4 · exact h .expr p
  · exact reads_recover (by simp) p

theorem reads_phrase (phrase : Phrase) : (Grammar.phrase inner phrase).Reads := by
  cases phrase with
  | expr => exact reads_expr h
  | atom => exact reads_atom h
  | operand power => exact reads_operand h power

omit h

theorem reads_nested (levels : Nat) (phrase : Phrase) : (nested levels phrase).Reads := by
  induction levels generalizing phrase with
  | zero => exact reads_giveUp
  | succ levels ih => exact reads_phrase ih phrase

theorem reads_file : file.Reads := by
  have he : (nested maxDepth .expr).Reads := reads_nested maxDepth .expr
  have ht : (seq [report .trailingInput, node .error remaining]).Reads :=
    reads_seq (by simp [reads_report, reads_node])
  exact reads_seq (by simp [reads_onlyIf _ he, reads_onlyIf _ ht])

end Grammar

end NixScope.Syntax
