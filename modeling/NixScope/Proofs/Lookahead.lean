import NixScope.Proofs.Productions

namespace NixScope.Syntax

namespace Place

/-- The same place in a text that ends before the tokens `after`, with no problem so far. -/
structure Cut (after : List Token) (p p' : Place) : Prop where
  rest : p.rest = p'.rest ++ after
  clean : p'.errors = []

variable {after : List Token} {p p' q : Place}

theorem Cut.consistent (h : p.Cut after p') : p'.Consistent := consistent_of_clean h.clean

theorem Cut.solid (h : p.Cut after p') :
    p.solid = p'.solid ++ after.filter fun t => !t.isTrivia := by
  rw [Place.solid, h.rest, List.filter_append]
  rfl

theorem Cut.ahead_eq_none_or (h : p.Cut after p') (n : Nat) :
    p'.ahead n = none ∨ p'.ahead n = p.ahead n := by
  rw [ahead_eq, ahead_eq, h.solid]
  by_cases hn : n < p'.solid.length
  · rw [List.getElem?_append_left hn]
    exact .inr rfl
  · rw [List.getElem?_eq_none (Nat.le_of_not_lt hn)]
    exact .inl rfl

theorem Cut.peek_eq_none_or (h : p.Cut after p') : p'.peek = none ∨ p'.peek = p.peek :=
  h.ahead_eq_none_or 0

theorem Leads.rest_suffix (h : p.Leads q) : q.rest <:+ p.rest := by
  obtain ⟨ts, ht⟩ := h
  exact ⟨_, ht.leaves⟩

theorem Leads.solid_length_le (h : p.Leads q) : q.solid.length ≤ p.solid.length :=
  (h.rest_suffix.sublist.filter _).length_le

/-- A token that has been taken is ahead in the shorter text as well. -/
theorem Cut.ahead_eq (h : p.Cut after p') (hl : p.Leads q) (hq : after.length ≤ q.rest.length)
    {n : Nat} (hn : q.solid.length + n < p.solid.length) : p'.ahead n = p.ahead n := by
  have hs : after <:+ q.rest :=
    List.suffix_of_suffix_length_le ⟨p'.rest, h.rest.symm⟩ hl.rest_suffix hq
  have hle : (after.filter fun t => !t.isTrivia).length ≤ q.solid.length :=
    (hs.sublist.filter _).length_le
  rw [h.solid, List.length_append] at hn
  rw [Place.ahead_eq, Place.ahead_eq, h.solid, List.getElem?_append_left (by omega)]

end Place

namespace Rule

open Place

def EatsAt (r : Rule) (n : Nat) (p : Place) : Prop := (r p).2.solid.length + n ≤ p.solid.length

/-- What stands in front of the rule's first token makes no difference to what it does there. -/
def Skips (r : Rule) : Prop := ∀ p, (r p).2.errors = [] → r p = seq [trivia, r] p

section

variable {r : Rule} {rs : List Rule} {p : Place} {m n : Nat}

theorem eatsAt_zero (hr : r.Reads) : r.EatsAt 0 p := Leads.solid_length_le (hr.moves p)

theorem eatsAt_token {k : Kind} (h : p.peek = some k) : token.EatsAt 1 p := by
  obtain ⟨t, ts, hr, -⟩ := Place.peek_eq_some.mp h
  have ht : (token p).2.rest = ts := by simp [token, seq, skip, trivia_eq, leaf, hr]
  apply Nat.le_of_eq
  rw [Place.solid_of_rest_skipTrivia hr, Place.solid, ht, List.length_cons]

theorem clean_of_seq (hs : (seq rs).Reads) (hq : (seq (r :: rs) p).2.errors = []) :
    (r p).2.errors = [] ∧ (seq rs (r p).2).2.errors = [] := by
  rw [seq_cons_apply] at hq
  exact ⟨Leads.clean (hs.moves _) hq, hq⟩

theorem eatsAt_seq (h : r.EatsAt m p) (hs : (seq rs).EatsAt n (r p).2) :
    (seq (r :: rs)).EatsAt (m + n) p := by
  simp only [EatsAt, seq_cons_apply] at h hs ⊢
  omega

theorem eatsAt_seq_first (h : r.EatsAt n p) (hs : ∀ r ∈ rs, r.Reads) :
    (seq (r :: rs)).EatsAt n p :=
  eatsAt_seq (n := 0) h (eatsAt_zero (reads_seq hs))

theorem eatsAt_node {kind : Kind} (h : r.EatsAt n p.skipTrivia) : (node kind r).EatsAt n p := by
  simpa only [EatsAt, node, trivia_eq, solid_skipTrivia] using h

theorem eatsAt_node_token {kind : Kind} {k : Kind} (hp : p.peek = some k)
    (hs : ∀ r ∈ rs, r.Reads) : (node kind (seq (token :: rs))).EatsAt 1 p :=
  eatsAt_node (eatsAt_seq_first (eatsAt_token (by simpa using hp)) hs)

theorem peek_of_expect_clean {kind : Kind} (h : (expect kind p).2.errors = []) :
    p.peek = some kind := by
  by_cases hp : p.peek = some kind
  · exact hp
  · rw [expect, if_neg hp] at h
    exact absurd h (p.report_not_clean _)

theorem eatsAt_expect {kind : Kind} (h : (expect kind p).2.errors = []) :
    (expect kind).EatsAt 1 p := by
  have hp := peek_of_expect_clean h
  have ht := eatsAt_token hp
  rwa [EatsAt, ← expect_pos hp] at ht

theorem eatsAt_of_takesAt (hr : r.Reads) (hk : r.Skips) (hq : (r p).2.errors = [])
    (ht : r.TakesAt p.skipTrivia) : r.EatsAt 1 p := by
  have he : (r p).2 = (r p.skipTrivia).2 := by
    rw [hk p hq]
    simp only [seq_cons_apply, seq_nil_apply, trivia_eq]
  cases hc : p.skipTrivia.rest with
  | nil => simp [TakesAt, hc] at ht
  | cons t ts =>
    have hsuf : (r p.skipTrivia).2.rest <:+ ts := by
      have hs := Leads.rest_suffix (hr.moves p.skipTrivia)
      rw [TakesAt, hc, List.length_cons] at ht
      rw [hc] at hs
      exact List.suffix_of_suffix_length_le hs (List.suffix_cons t ts) (by omega)
    rw [EatsAt, he, Place.solid_of_rest_skipTrivia hc, List.length_cons]
    exact Nat.add_le_add_right (hsuf.sublist.filter _).length_le 1

theorem skips_trivia_seq : (seq (trivia :: rs)).Skips := by
  intro p _
  simp only [seq_cons_apply, seq_nil_apply, trivia_eq p, trivia_skipTrivia, List.nil_append,
    List.append_nil]

theorem skips_node (kind : Kind) (r : Rule) : (node kind r).Skips := by
  intro p _
  simp only [node, seq_cons_apply, seq_nil_apply, trivia_eq p, trivia_skipTrivia, List.nil_append,
    List.append_nil]

theorem Skips.congr {s : Rule} (h : s.Skips) (hq : (r p).2.errors = []) (he : r p = s p)
    (he' : r p.skipTrivia = s p.skipTrivia) : r p = seq [trivia, r] p := by
  rw [he] at hq ⊢
  rw [h p hq]
  simp only [seq_cons_apply, trivia_eq p, he']

end

end Rule

def Kind.startsStatement (k : Kind) : Bool := k matches letKw | withKw | assertKw | ifKw

theorem Kind.stays_of_startsArgument {k : Kind} (h : k.startsArgument = true) :
    k.stays = false := by
  simp [stays, h]

theorem Kind.stays_of_startsStatement {k : Kind} (h : k.startsStatement = true) :
    k.stays = false := by
  cases k <;> first | rfl | cases h

namespace Grammar

open Rule Place

theorem brokenDot_not_clean (p : Place) :
    (seq [report .noAttrAfterDot, node .error token] p).2.errors ≠ [] := by
  intro hq
  have hn : (seq [node .error token]).Reads := reads_seq (by simp [reads_node])
  exact p.report_not_clean _ (clean_of_seq hn hq).1

def lambdaAhead (p : Place) : Bool :=
  match p.peek with
  | some .ident => p.ahead 1 == some .colon || p.ahead 1 == some .atSign
  | some .leftBrace => patternAhead p
  | _ => false

section

variable (inner : Phrase → Rule) (p : Place)

inductive ExprChoice : Rule → Prop
  | letIn (hp : p.peek = some .letKw) : ExprChoice (letIn inner)
  | withIn (hp : p.peek = some .withKw) : ExprChoice (statement inner .withIn)
  | assert (hp : p.peek = some .assertKw) : ExprChoice (statement inner .assert)
  | ifElse (hp : p.peek = some .ifKw) : ExprChoice (ifElse inner)
  | nameLambda (hp : p.peek = some .ident) (hc : p.ahead 1 = some .colon) :
      ExprChoice (nameLambda inner)
  | namedPattern (hp : p.peek = some .ident) (hc : p.ahead 1 = some .atSign) :
      ExprChoice (patternLambda inner)
  | pattern (hp : p.peek = some .leftBrace) (ha : patternAhead p = true) :
      ExprChoice (patternLambda inner)
  | operand (hk : p.peek.any Kind.startsStatement = false) (hn : lambdaAhead p = false) :
      ExprChoice (operand inner 0)

inductive AtomChoice : Option Kind → Rule → Prop
  | var : AtomChoice (some .ident) (node .var token)
  | literal {k : Kind} (hk : k ∈ [.integer, .float, .path, .searchPath, .uri]) :
      AtomChoice (some k) (node .literal token)
  | string {k : Kind} (hk : k = .quote ∨ k = .indentedQuote) :
      AtomChoice (some k) (string inner k)
  | interpolatedPath : AtomChoice (some .pathFragment) (interpolatedPath inner)
  | paren :
      AtomChoice (some .leftParen) (node .paren (seq [token, inner .expr, expect .rightParen]))
  | list : AtomChoice (some .leftBracket) (list inner)
  | attrSet {k : Kind} (hk : k = .leftBrace ∨ k = .recKw) : AtomChoice (some k) (attrSet inner)
  | keyword {k : Kind} (hk : k.startsStatement = true) : AtomChoice (some k) (inner .expr)
  | broken {o : Option Kind} (hs : o.any Kind.startsStatement = false)
      (ha : o.any Kind.startsArgument = false) : AtomChoice o (recover .noExpression)

theorem expr_choice : ∃ r, ExprChoice inner p r ∧ expr inner p = r p := by
  simp only [expr]
  split
  · exact ⟨_, .letIn (by assumption), rfl⟩
  · exact ⟨_, .withIn (by assumption), rfl⟩
  · exact ⟨_, .assert (by assumption), rfl⟩
  · exact ⟨_, .ifElse (by assumption), rfl⟩
  · rename_i hp
    split
    · exact ⟨_, .nameLambda hp (by assumption), rfl⟩
    split
    · exact ⟨_, .namedPattern hp (by assumption), rfl⟩
    · exact ⟨_, .operand (by simp [hp, Kind.startsStatement]) (by simp [lambdaAhead, *]), rfl⟩
  · rename_i hp
    split
    · exact ⟨_, .pattern hp (by assumption), rfl⟩
    · exact ⟨_, .operand (by simp [hp, Kind.startsStatement]) (by simp [lambdaAhead, *]), rfl⟩
  · refine ⟨_, .operand ?_ ?_, rfl⟩
    · cases hp : p.peek with
      | none => rfl
      | some k => cases k <;> first | rfl | simp_all
    · simp only [lambdaAhead]

theorem atom_choice : ∃ r, AtomChoice inner p.peek r ∧ atom inner p = r p := by
  simp only [atom]
  cases p.peek with
  | none => exact ⟨_, .broken rfl rfl, rfl⟩
  | some k =>
    cases k with
    | ident => exact ⟨_, .var, rfl⟩
    | integer | float | path | searchPath | uri => exact ⟨_, .literal (by decide), rfl⟩
    | quote => exact ⟨_, .string (.inl rfl), rfl⟩
    | indentedQuote => exact ⟨_, .string (.inr rfl), rfl⟩
    | pathFragment => exact ⟨_, .interpolatedPath, rfl⟩
    | leftParen => exact ⟨_, .paren, rfl⟩
    | leftBracket => exact ⟨_, .list, rfl⟩
    | leftBrace => exact ⟨_, .attrSet (.inl rfl), rfl⟩
    | recKw => exact ⟨_, .attrSet (.inr rfl), rfl⟩
    | letKw | withKw | assertKw | ifKw => exact ⟨_, .keyword rfl, rfl⟩
    | _ => exact ⟨_, .broken rfl rfl, rfl⟩

variable {inner p} {r : Rule}

theorem ExprChoice.eq (h : ExprChoice inner p r) : expr inner p = r p := by
  obtain ⟨s, hs, he⟩ := expr_choice inner p
  cases h <;> cases hs <;> simp_all [lambdaAhead, Kind.startsStatement]

/-- What an expression is depends on the tokens ahead alone. -/
theorem ExprChoice.of_ahead {q : Place} (h : ExprChoice inner p r) (hq : ∀ n, q.ahead n = p.ahead n) :
    ExprChoice inner q r := by
  have hk : q.peek = p.peek := hq 0
  have hp : patternAhead q = patternAhead p := by simp only [patternAhead, hq]
  have hl : lambdaAhead q = lambdaAhead p := by simp only [lambdaAhead, hk, hq, hp]
  cases h with
  | letIn h => exact .letIn (hk.trans h)
  | withIn h => exact .withIn (hk.trans h)
  | assert h => exact .assert (hk.trans h)
  | ifElse h => exact .ifElse (hk.trans h)
  | nameLambda h hc => exact .nameLambda (hk.trans h) ((hq 1).trans hc)
  | namedPattern h hc => exact .namedPattern (hk.trans h) ((hq 1).trans hc)
  | pattern h ha => exact .pattern (hk.trans h) (hp.trans ha)
  | operand h hn => exact .operand (hk ▸ h) (hl.trans hn)

theorem ExprChoice.skipTrivia (h : ExprChoice inner p r) : ExprChoice inner p.skipTrivia r :=
  h.of_ahead (ahead_skipTrivia p)

theorem skips_expr : (expr inner).Skips := by
  intro p hq
  obtain ⟨r, hr, he⟩ := expr_choice inner p
  have hs : r.Skips := by
    cases hr with
    | operand hk hn => exact skips_trivia_seq
    | _ => exact skips_node _ _
  exact hs.congr hq he hr.skipTrivia.eq

theorem AtomChoice.eq {o : Option Kind} (h : AtomChoice inner o r) (hp : p.peek = o) :
    atom inner p = r p := by
  cases h with
  | literal hk =>
    simp only [List.mem_cons, List.not_mem_nil, or_false] at hk
    obtain rfl | rfl | rfl | rfl | rfl := hk <;> simp [atom, hp]
  | string hk => obtain rfl | rfl := hk <;> simp [atom, hp]
  | attrSet hk => obtain rfl | rfl := hk <;> simp [atom, hp]
  | @keyword k hk => cases k <;> simp_all [atom, Kind.startsStatement]
  | broken hs ha =>
    cases o with
    | none => simp [atom, hp]
    | some k => cases k <;> simp_all [atom, Kind.startsStatement, Kind.startsArgument]
  | _ => simp [atom, hp]

theorem skips_atom (h : (inner .expr).Skips) : (atom inner).Skips := by
  intro p hq
  obtain ⟨r, hr, he⟩ := atom_choice inner p
  refine Rule.Skips.congr ?_ hq he (hr.eq p.peek_skipTrivia)
  generalize p.peek = o at hr
  cases hr with
  | keyword hk => exact h
  | broken hs ha => exact absurd (he ▸ hq) (recover_not_clean _ p)
  | _ => exact skips_node _ _

theorem select_skip (h : ∀ phrase, (inner phrase).Reads) (hp : p.Consistent) :
    select inner p = seq [trivia, select inner] p := by
  simp only [seq_cons_apply trivia, seq_cons_apply (select inner), seq_nil_apply, trivia_eq p,
    select_eq h hp, select_eq h hp.skipTrivia, trivia_skipTrivia, List.nil_append, List.append_nil]

theorem skips_select (h : ∀ phrase, (inner phrase).Reads) : (select inner).Skips := fun p hq =>
  select_skip h (consistent_of_clean (Leads.clean ((reads_select h).moves p) hq))

end

section

variable {inner : Phrase → Rule} (h : ∀ phrase, (inner phrase).Reads) {power : Nat}
  {left : List Tree} {p : Place} (hp : p.Consistent)

include h hp

theorem operators_stop (hs : Stops power p) : operators inner power left p = (left, p) := by
  rw [operators_eq h hp, operatorThen]
  by_cases hk : p.peek = some .question
  · have hpow : hasAttrPower < power := hs _ (by simp [hk, Kind.leftPower])
    rw [if_pos hk, if_pos hpow]
  · rw [if_neg hk]
    cases hb : p.peek.bind Kind.bindingPower with
    | none => rfl
    | some powers =>
      have hlt : powers.1 < power := hs _ (by simp [bind_leftPower hk, hb])
      exact if_pos hlt

theorem operators_question (hk : p.peek = some .question) (hpow : power ≤ hasAttrPower) :
    operators inner power left p = (wrap .hasAttr left (seq [token, attrPath inner])).andThen
      (operators inner power) p := by
  rw [operators_eq h hp, operatorThen, if_pos hk, if_neg (Nat.not_lt.mpr hpow)]

theorem operators_binary {k : Kind} {l r : Nat} (hk : p.peek = some k)
    (hb : k.bindingPower = some (l, r)) (hpow : power ≤ l) :
    operators inner power left p = (wrap .binaryOp left
      (seq [token, trivia, (leftmost inner).andThen (operators inner r)])).andThen
        (operators inner power) p := by
  have hq : ¬p.peek = some .question := by
    rw [hk]
    rintro ⟨⟩
    cases hb
  rw [operators_eq h hp, operatorThen, if_neg hq]
  simp only [hk, Option.bind_some, hb, if_neg (Nat.not_lt.mpr hpow)]

omit h hp in
/-- An operator is ahead that binds at least as strongly as `power`, unless the operators stop. -/
theorem stops_or (power : Nat) (p : Place) : Stops power p ∨
    (p.peek = some .question ∧ power ≤ hasAttrPower) ∨
    ∃ k l r, p.peek = some k ∧ k.bindingPower = some (l, r) ∧ power ≤ l := by
  by_cases hk : p.peek = some .question
  · by_cases hpow : power ≤ hasAttrPower
    · exact .inr (.inl ⟨hk, hpow⟩)
    · exact .inl (stops_of_question hk (Nat.lt_of_not_le hpow))
  · cases hb : p.peek.bind Kind.bindingPower with
    | none => exact .inl fun l hl => by simp [bind_leftPower hk, hb] at hl
    | some powers =>
      obtain ⟨k, hk', hb'⟩ := Option.bind_eq_some_iff.mp hb
      by_cases hpow : power ≤ powers.1
      · exact .inr (.inr ⟨k, powers.1, powers.2, hk', hb', hpow⟩)
      · left
        intro l hl
        simp only [bind_leftPower hk, hb, Option.map_some, Option.some.injEq] at hl
        omega

end

theorem skips_nested (levels : Nat) (phrase : Phrase) : (nested levels phrase).Skips := by
  induction levels generalizing phrase with
  | zero => exact fun p hq => absurd hq (giveUp_not_clean p)
  | succ levels ih =>
    cases phrase with
    | expr => exact skips_expr
    | atom => exact skips_atom (ih .expr)
    | operand power => exact skips_trivia_seq

section

variable {levels : Nat} {p : Place} {k : Kind}

theorem eatsAt_nested {phrase : Phrase} (hp : p.peek = some k) (hk : k.stays = false)
    (hq : (nested levels phrase p).2.errors = []) : (nested levels phrase).EatsAt 1 p := by
  have hc := consistent_of_clean (Leads.clean ((reads_nested levels phrase).moves p) hq)
  exact eatsAt_of_takesAt (reads_nested levels phrase) (skips_nested levels phrase) hq
    (starts_nested levels phrase hc.skipTrivia (by simpa using hp) hk)

theorem eatsAt_select (hp : p.peek = some k) (hk : k.stays = false)
    (hq : (select (nested levels) p).2.errors = []) : (select (nested levels)).EatsAt 1 p := by
  have h := reads_nested levels
  have hc := consistent_of_clean (Leads.clean ((reads_select h).moves p) hq)
  exact eatsAt_of_takesAt (reads_select h) (skips_select h) hq
    (starts_select h (starts_nested levels) hc.skipTrivia (by simpa using hp) hk)

theorem eatsAt_attr (hp : p.peek = some k) (hk : k.startsAttr) :
    (attr (nested levels)).EatsAt 1 p := by
  have h := reads_nested levels
  apply eatsAt_node
  rw [← peek_skipTrivia] at hp
  obtain rfl | rfl | rfl | rfl := Kind.startsAttr_iff.mp hk <;> simp only [EatsAt, hp]
  · exact eatsAt_token hp
  · exact eatsAt_token hp
  · exact eatsAt_node_token hp (by simp [reads_stringParts h, reads_ifPeek])
  · exact eatsAt_node_token hp (by simp [h])

theorem eatsAt_attrPath (hp : p.peek = some k) (hk : k.startsAttr) :
    (attrPath (nested levels)).EatsAt 1 p :=
  eatsAt_node (eatsAt_seq_first (eatsAt_attr (by simpa using hp) hk)
    (by simp [reads_dotAttrs (reads_nested levels)]))

end

section

variable {after : List Token} {l : Nat}

theorem dotAttrAhead_eq {p p' : Place} (hc : p.Cut after p') {r : Rule} (hr : r.Reads)
    (hle : after.length ≤ (r p).2.rest.length) (he : r.EatsAt 2 p) :
    dotAttrAhead p' = dotAttrAhead p := by
  have h0 : p'.peek = p.peek := hc.ahead_eq (hr.moves p) hle (by rw [EatsAt] at he; omega)
  have h1 : p'.ahead 1 = p.ahead 1 := hc.ahead_eq (hr.moves p) hle (by rw [EatsAt] at he; omega)
  rw [dotAttrAhead, dotAttrAhead, h0, h1]

theorem dotAttrAhead_eq_false {p p' : Place} (hc : p.Cut after p')
    (hd : dotAttrAhead p = false) : dotAttrAhead p' = false := by
  rw [dotAttrAhead] at hd ⊢
  obtain h0 | h0 := hc.peek_eq_none_or <;> obtain h1 | h1 := hc.ahead_eq_none_or 1 <;>
    simp_all

theorem eatsAt_dotAttr {p : Place} (hd : dotAttrAhead p = true) {r : Rule} {rs : List Rule}
    (hr : ∀ {q k}, q.peek = some k → k.startsAttr → r.EatsAt 1 q) (hs : ∀ r ∈ rs, r.Reads) :
    (seq (token :: r :: rs)).EatsAt 2 p := by
  have hp := peek_of_dotAttrAhead hd
  simp only [dotAttrAhead, Bool.and_eq_true] at hd
  obtain ⟨k, hk, ha⟩ := (Option.any_eq_true _ _).mp hd.2
  have hk : (token p).2.peek = some k := (ahead_token hp 0).trans hk
  exact eatsAt_seq (eatsAt_token hp) (eatsAt_seq_first (hr hk ha) hs)

theorem not_startsArgument_of_cut {p p' : Place} (hc : p.Cut after p')
    (ha : ¬p.peek.any Kind.startsArgument = true) : ¬p'.peek.any Kind.startsArgument = true := by
  obtain hn | hn := hc.peek_eq_none_or <;> rw [hn]
  · simp
  · exact ha

theorem stops_of_cut {power : Nat} {p p' : Place} (hc : p.Cut after p') (hs : Stops power p) :
    Stops power p' := by
  intro l hl
  obtain hn | hn := hc.peek_eq_none_or
  · simp [hn] at hl
  · exact hs l (hn ▸ hl)

theorem eatsAt_paramName {p : Place} {k : Kind} (hp : p.peek = some k) : paramName.EatsAt 1 p :=
  eatsAt_node (eatsAt_token (by simpa using hp))

theorem eatsAt_formal {p : Place} {k : Kind} (hp : p.peek = some k)
    (hq : (formal (nested l) k p).2.errors = []) : (formal (nested l) k).EatsAt 1 p := by
  have hd : («when» .question (seq [token, nested l .expr])).Reads :=
    reads_when _ (reads_seq (by simp [reads_nested]))
  simp only [formal] at hq ⊢
  split at hq
  · exact eatsAt_token hp
  · exact eatsAt_node (eatsAt_seq_first (eatsAt_paramName (by simpa using hp)) (by simp [hd]))
  · exact absurd hq (recover_not_clean _ p)

theorem formals_stop {p : Place} (hc : p.Consistent)
    (hp : p.peek = none ∨ p.peek = some .rightBrace) : formals (nested l) p = ([], p) := by
  rw [formals_eq (reads_nested l) hc, formalThen]
  obtain hp | hp := hp <;> rw [hp]

theorem formals_more {p : Place} {k : Kind} (hc : p.Consistent) (hp : p.peek = some k)
    (hk : k ≠ .rightBrace) : formals (nested l) p =
      seq [formal (nested l) k, «when» .comma (seq [token, formals (nested l)])] p := by
  rw [formals_eq (reads_nested l) hc, formalThen, hp]
  cases k <;> first | rfl | exact absurd rfl hk

theorem patternAhead_iff {p : Place} : patternAhead p = true ↔
    p.ahead 1 = some .ellipsis ∨
    p.ahead 1 = some .rightBrace ∧ (p.ahead 2 = some .colon ∨ p.ahead 2 = some .atSign) ∨
    p.ahead 1 = some .ident ∧ (p.ahead 2 = some .comma ∨ p.ahead 2 = some .question ∨
      p.ahead 2 = some .rightBrace ∧ (p.ahead 3 = some .colon ∨ p.ahead 3 = some .atSign)) := by
  simp only [patternAhead]
  split <;> simp_all

theorem lambdaAhead_iff {p : Place} : lambdaAhead p = true ↔
    p.peek = some .ident ∧ (p.ahead 1 = some .colon ∨ p.ahead 1 = some .atSign) ∨
    p.peek = some .leftBrace ∧ patternAhead p = true := by
  simp only [lambdaAhead]
  split <;> simp_all

theorem lambdaAhead_of_cut {p p' : Place} (hc : p.Cut after p') (h : lambdaAhead p' = true) :
    lambdaAhead p = true := by
  have hsome : ∀ {n : Nat} {k : Kind}, p'.ahead n = some k → p.ahead n = some k := by
    intro n k hk
    obtain hn | hn := hc.ahead_eq_none_or n
    · simp [hn] at hk
    · rw [← hn, hk]
  have hpat : patternAhead p' = true → patternAhead p = true := by
    rw [patternAhead_iff, patternAhead_iff]
    rintro (h1 | ⟨h1, h2 | h2⟩ | ⟨h1, h2 | h2 | ⟨h2, h3 | h3⟩⟩)
    · exact .inl (hsome h1)
    · exact .inr (.inl ⟨hsome h1, .inl (hsome h2)⟩)
    · exact .inr (.inl ⟨hsome h1, .inr (hsome h2)⟩)
    · exact .inr (.inr ⟨hsome h1, .inl (hsome h2)⟩)
    · exact .inr (.inr ⟨hsome h1, .inr (.inl (hsome h2))⟩)
    · exact .inr (.inr ⟨hsome h1, .inr (.inr ⟨hsome h2, .inl (hsome h3)⟩)⟩)
    · exact .inr (.inr ⟨hsome h1, .inr (.inr ⟨hsome h2, .inr (hsome h3)⟩)⟩)
  rw [lambdaAhead_iff] at h ⊢
  obtain ⟨h0, h1 | h1⟩ | ⟨h0, hp⟩ := h
  · exact .inl ⟨hsome h0, .inl (hsome h1)⟩
  · exact .inl ⟨hsome h0, .inr (hsome h1)⟩
  · exact .inr ⟨hsome h0, hpat hp⟩

theorem eatsAt_pattern {p : Place} {n : Nat} (hp : p.peek = some .leftBrace)
    (hq : (pattern (nested l) p).2.errors = [])
    (hf : (formals (nested l) (token p.skipTrivia).2).2.errors = [] →
      (formals (nested l)).EatsAt n (token p.skipTrivia).2) :
    (pattern (nested l)).EatsAt (n + 2) p := by
  have hname : («when» .atSign patternName).Reads := reads_when _ reads_patternName
  have hr := reads_formals (reads_nested l)
  rw [← peek_skipTrivia] at hp
  have hskip : seq [«when» .ident (node .patternBind (seq [paramName, expect .atSign])),
      expect .leftBrace, formals (nested l), expect .rightBrace, «when» .atSign patternName]
        p.skipTrivia =
      seq [token, formals (nested l), expect .rightBrace, «when» .atSign patternName]
        p.skipTrivia := by
    rw [seq_cons_of_nil (when_neg (by simp [hp]))]
    exact seq_congr (expect_pos hp) rfl
  simp only [pattern, node, trivia_eq, hskip] at hq
  obtain ⟨-, hq⟩ := clean_of_seq (reads_seq (by simp [hname, hr])) hq
  obtain ⟨hclean, hq⟩ := clean_of_seq (reads_seq (by simp [hname])) hq
  obtain ⟨hclose, -⟩ := clean_of_seq (reads_seq (by simp [hname])) hq
  have hs : (seq [token, formals (nested l), expect .rightBrace,
      «when» .atSign patternName]).EatsAt (1 + (n + 1)) p.skipTrivia :=
    eatsAt_seq (eatsAt_token hp) (eatsAt_seq (hf hclean)
      (eatsAt_seq_first (eatsAt_expect hclose) (by simp [hname])))
  apply eatsAt_node
  rw [EatsAt, hskip]
  rw [EatsAt] at hs
  omega

theorem eatsAt_namedPattern {p : Place} (hp : p.peek = some .ident)
    (hq : (pattern (nested l) p).2.errors = []) : (pattern (nested l)).EatsAt 2 p := by
  have hname : («when» .atSign patternName).Reads := reads_when _ reads_patternName
  have hr := reads_formals (reads_nested l)
  rw [← peek_skipTrivia] at hp
  simp only [pattern, node, trivia_eq] at hq
  obtain ⟨hbind, -⟩ := clean_of_seq (reads_seq (by simp [hname, hr])) hq
  simp only [when_pos hp, node, trivia_eq, skipTrivia_skipTrivia] at hbind
  obtain ⟨-, hat⟩ := clean_of_seq (reads_seq (by simp)) hbind
  obtain ⟨hat, -⟩ := clean_of_seq (reads_seq (by simp)) hat
  have hs : (seq [paramName, expect .atSign]).EatsAt 2 p.skipTrivia.skipTrivia := by
    rw [skipTrivia_skipTrivia]
    exact eatsAt_seq (eatsAt_paramName hp) (eatsAt_seq_first (eatsAt_expect hat) (by simp))
  apply eatsAt_node
  apply eatsAt_seq_first _ (by simp [hname, hr])
  rw [EatsAt, when_pos hp]
  exact eatsAt_node hs

theorem eatsAt_patternLambda {p : Place} {n : Nat} (hq : (patternLambda (nested l) p).2.errors = [])
    (hp : (pattern (nested l) p.skipTrivia).2.errors = [] →
      (pattern (nested l)).EatsAt n p.skipTrivia) :
    (patternLambda (nested l)).EatsAt (n + 1) p := by
  have h := reads_nested l
  simp only [patternLambda, node, trivia_eq] at hq
  obtain ⟨hpat, hq⟩ := clean_of_seq (reads_seq (by simp [h])) hq
  obtain ⟨hcolon, -⟩ := clean_of_seq (reads_seq (by simp [h])) hq
  exact eatsAt_node (eatsAt_seq (hp hpat) (eatsAt_seq_first (eatsAt_expect hcolon) (by simp [h])))

theorem patternAhead_of_cut {p p' : Place} (hc : p.Cut after p') (hp : p.peek = some .leftBrace)
    (ha : patternAhead p = true) (hq : (patternLambda (nested l) p).2.errors = [])
    (hle : after.length ≤ (patternLambda (nested l) p).2.rest.length) :
    patternAhead p' = true := by
  have hr := reads_formals (reads_nested l)
  have hlead := (reads_patternLambda (reads_nested l)).moves p
  have hq' : (token p.skipTrivia).2.ahead 0 = p.ahead 1 := by
    rw [ahead_token (by simpa using hp), ahead_skipTrivia]
  have hpeek : p.skipTrivia.peek = some .leftBrace := by simpa using hp
  have hpat : ∀ {n : Nat}, ((formals (nested l) (token p.skipTrivia.skipTrivia).2).2.errors = [] →
        (formals (nested l)).EatsAt n (token p.skipTrivia.skipTrivia).2) →
      (patternLambda (nested l)).EatsAt (n + 3) p := fun hf =>
    eatsAt_patternLambda hq fun hq => eatsAt_pattern hpeek hq hf
  have heat := hpat fun _ => eatsAt_zero hr
  rw [EatsAt] at heat
  have h1 : p'.ahead 1 = p.ahead 1 := hc.ahead_eq hlead hle (by omega)
  have h2 : p'.ahead 2 = p.ahead 2 := hc.ahead_eq hlead hle (by omega)
  rw [patternAhead_iff] at ha ⊢
  rw [h1, h2]
  obtain ha | ha | ⟨ha, hb⟩ := ha
  · exact .inl ha
  · exact .inr (.inl ha)
  · -- Behind the name that is ahead, one more token of the pattern is taken.
    have hmore : (formals (nested l) (token p.skipTrivia.skipTrivia).2).2.errors = [] →
        (formals (nested l)).EatsAt 1 (token p.skipTrivia.skipTrivia).2 := by
      rw [skipTrivia_skipTrivia]
      have hcomma : («when» .comma (seq [token, formals (nested l)])).Reads :=
        reads_when _ (reads_seq (by simp [hr]))
      intro hclean
      have hc := consistent_of_clean (Leads.clean (hr.moves _) hclean)
      have hf := formals_more (l := l) hc (hq'.trans ha) (by simp)
      rw [hf] at hclean
      obtain ⟨hclean, -⟩ := clean_of_seq (reads_seq (by simp [hcomma])) hclean
      rw [EatsAt, hf]
      exact eatsAt_seq_first (eatsAt_formal (hq'.trans ha) hclean) (by simp [hcomma])
    have heat := hpat hmore
    rw [EatsAt] at heat
    have h3 : p'.ahead 3 = p.ahead 3 := hc.ahead_eq hlead hle (by omega)
    rw [h3]
    exact .inr (.inr ⟨ha, hb⟩)

end

end Grammar

end NixScope.Syntax
