import NixScope.Proofs.Reads

namespace NixScope.Syntax

namespace Place

/-- Nothing is ahead once a rule has given up. -/
def Consistent (p : Place) : Prop := p.gaveUp = true → p.peek = none

theorem consistent_start (tokens : List Token) : (start tokens).Consistent := nofun

theorem Consistent.gaveUp_eq_false {p : Place} {k : Kind} (h : p.Consistent)
    (hp : p.peek = some k) : p.gaveUp = false := by
  cases hg : p.gaveUp with
  | false => rfl
  | true => simp [h hg] at hp

theorem Consistent.skipTrivia {p : Place} (h : p.Consistent) : p.skipTrivia.Consistent := by
  intro hg
  rw [peek_skipTrivia]
  exact h hg

theorem rest_skipTrivia_length_le (p : Place) : p.skipTrivia.rest.length ≤ p.rest.length :=
  (List.dropWhile_sublist _).length_le

end Place

namespace Rule

def TakesAt (r : Rule) (p : Place) : Prop := (r p).2.rest.length < p.rest.length

theorem takesAt_token {p : Place} {k : Kind} (h : p.peek = some k) : token.TakesAt p := by
  obtain ⟨t, ts, hr, -⟩ := Place.peek_eq_some.mp h
  have hl := p.rest_skipTrivia_length_le
  simp only [TakesAt, token, seq, skip, leaf, trivia_eq, hr] at hl ⊢
  simp only [List.length_cons] at hl
  omega

theorem takesAt_seq {r : Rule} {rs : List Rule} {p : Place} (h : r.TakesAt p)
    (hrs : ∀ r ∈ rs, r.Reads) : (seq (r :: rs)).TakesAt p :=
  Nat.lt_of_le_of_lt (reads_seq hrs _).rest_length_le h

theorem takesAt_seq_of_rest {r : Rule} {rs : List Rule} {p : Place} (hr : r.Reads)
    (h : (seq rs).TakesAt (r p).2) : (seq (r :: rs)).TakesAt p :=
  Nat.lt_of_lt_of_le h (hr p).rest_length_le

theorem takesAt_trivia_seq {rs : List Rule} {p : Place} (h : (seq rs).TakesAt p.skipTrivia) :
    (seq (trivia :: rs)).TakesAt p :=
  takesAt_seq_of_rest reads_trivia (by rwa [trivia_eq])

theorem takesAt_node {kind : Kind} {r : Rule} {p : Place} (h : r.TakesAt p.skipTrivia) :
    (node kind r).TakesAt p := by
  have hl := p.rest_skipTrivia_length_le
  simp only [TakesAt, node, trivia_eq] at h ⊢
  omega

theorem Moves.rest_length_le {r : Rule} (h : r.Moves) (p : Place) :
    (r p).2.rest.length ≤ p.rest.length := by
  obtain ⟨ts, ht⟩ := h p
  exact ht.rest_length_le

theorem takesAt_andThen {first : Rule} {second : List Tree → Rule} {p : Place}
    (h : first.TakesAt p) (h' : ReadsOn second) : (first.andThen second).TakesAt p :=
  Nat.lt_of_le_of_lt ((h'.moves _).rest_length_le _) h

theorem takesAt_when {kind : Kind} {r : Rule} {p : Place} (hp : p.peek = some kind)
    (h : r.TakesAt p) : («when» kind r).TakesAt p := by
  rwa [TakesAt, when_pos hp]

theorem takesAt_expect {kind : Kind} {p : Place} (hp : p.peek = some kind) :
    (expect kind).TakesAt p := by
  rw [TakesAt, expect_pos hp]
  exact takesAt_token hp

theorem takesAt_seq_single {r : Rule} {p : Place} (h : r.TakesAt p) : (seq [r]).TakesAt p :=
  takesAt_seq h (by simp)

theorem peek_remaining (p : Place) : (remaining p).2.peek = none := by
  suffices h : ∀ (clock : List Token) (p : Place), p.rest.length ≤ clock.length →
      (manyFrom (fun p => p.peek.map fun _ => token) clock p).2.peek = none from
    h p.rest p (Nat.le_refl _)
  intro clock
  induction clock with
  | nil =>
    intro p hl
    rw [List.length_nil, Nat.le_zero, List.length_eq_zero_iff] at hl
    simp [manyFrom, Place.peek_eq_none, Place.skipTrivia, hl]
  | cons c clock ih =>
    intro p hl
    rw [manyFrom]
    cases hp : p.peek with
    | none => simpa using hp
    | some k =>
      have ht : (token p).2.rest.length < p.rest.length := takesAt_token hp
      rw [List.length_cons] at hl
      exact ih (token p).2 (by omega)

theorem giveUp_eq {p : Place} (h : p.gaveUp = false) :
    giveUp p = node .error remaining (p.report .nestedTooDeeply) := by
  simp [giveUp, h, seq, report, skip]

theorem peek_giveUp {p : Place} (h : p.gaveUp = false) : (giveUp p).2.peek = none := by
  rw [giveUp_eq h]
  exact peek_remaining _

theorem takesAt_of_peek_ne {r : Rule} {p : Place} (hr : r.Reads) (h : (r p).2.peek ≠ p.peek) :
    r.TakesAt p := by
  obtain he | ht := (hr p).rest_eq_or_lt
  · exact absurd (by rw [Place.peek, Place.peek, Place.ahead, Place.ahead, he]) h
  · exact ht

theorem takesAt_giveUp {p : Place} {k : Kind} (h : p.gaveUp = false) (hp : p.peek = some k) :
    giveUp.TakesAt p :=
  takesAt_of_peek_ne reads_giveUp (by simp [peek_giveUp h, hp])

end Rule

theorem Place.Reads.consistent {p q : Place} {ts : List Tree} (h : Reads p ts q)
    (hp : p.Consistent) : q.Consistent := by
  induction h with
  | skip p => exact hp
  | report p h =>
    intro hg
    rw [Place.gaveUp_report p _ h] at hg
    simpa using hp hg
  | @leaf p t rest h =>
    intro hg
    have hn := hp hg
    rw [Place.peek, Place.ahead_eq, Place.solid, h] at hn
    rw [Place.peek, Place.ahead_eq, Place.solid]
    cases ht : t.isTrivia <;> simp_all
  | node hk h ih => exact ih hp
  | append h h' ih ih' => exact ih' (ih hp)
  | giveUp hg h ih => exact fun _ => Rule.peek_giveUp hg

namespace Rule

theorem Moves.consistent {r : Rule} (h : r.Moves) {p : Place} (hp : p.Consistent) :
    (r p).2.Consistent := by
  obtain ⟨ts, ht⟩ := h p
  exact ht.consistent hp

theorem consistent {r : Rule} (hr : r.Reads) {p : Place} (hp : p.Consistent) :
    (r p).2.Consistent :=
  hr.moves.consistent hp

/-- A loop that counts its rounds by a list of tokens. A round goes on only where it has taken one,
and does without going on at the end of the text. -/
structure Loop {α : Type} (round : (α → Rule) → α → Rule) (counted : List Token → α → Rule) :
    Prop where
  moves : ∀ clock a, (counted clock a).Moves
  nil : ∀ {a p}, p.Consistent → p.rest = [] → counted [] a p = round (counted []) a p
  cons : ∀ {c clock a p}, counted (c :: clock) a p = round (counted clock) a p
  congr : ∀ {next next' : α → Rule} {a p}, (∀ b, (next b).Moves) → p.Consistent →
    (∀ b q, q.Consistent → q.rest.length < p.rest.length → next b q = next' b q) →
    round next a p = round next' a p

namespace Loop

variable {α : Type} {round : (α → Rule) → α → Rule} {counted : List Token → α → Rule}

theorem end_eq (h : Loop round counted) (clock : List Token) (next : α → Rule) {a : α} {p : Place}
    (hp : p.Consistent) (hn : p.rest = []) : counted clock a p = round next a p := by
  have hc : ∀ clock, round (counted clock) a p = round next a p :=
    fun clock => h.congr (h.moves clock) hp fun b q _ hq => by simp [hn] at hq
  cases clock with
  | nil => rw [h.nil hp hn, hc]
  | cons c clock => rw [h.cons, hc]

/-- A count that covers the tokens ahead is as good as any other. -/
theorem counted_eq (h : Loop round counted) {clock clock' : List Token} {a : α} {p : Place}
    (hp : p.Consistent) (hl : p.rest.length ≤ clock.length) (hl' : p.rest.length ≤ clock'.length) :
    counted clock a p = counted clock' a p := by
  induction clock generalizing clock' a p with
  | nil =>
    have hn : p.rest = [] := List.length_eq_zero_iff.mp (Nat.le_zero.mp hl)
    rw [h.end_eq [] (counted []) hp hn, h.end_eq clock' (counted []) hp hn]
  | cons c clock ih =>
    cases clock' with
    | nil =>
      have hn : p.rest = [] := List.length_eq_zero_iff.mp (Nat.le_zero.mp hl')
      rw [h.end_eq [] (counted []) hp hn, h.end_eq (c :: clock) (counted []) hp hn]
    | cons c' clock' =>
      rw [List.length_cons] at hl hl'
      rw [h.cons, h.cons]
      exact h.congr (h.moves clock) hp fun b q hq hlt => ih hq (by omega) (by omega)

/-- The loop runs until a round does not go on: it is its own round without a count. -/
theorem eq (h : Loop round counted) (a : α) {p : Place} (hp : p.Consistent) :
    counted p.rest a p = round (fun b q => counted q.rest b q) a p := by
  cases hr : p.rest with
  | nil => exact h.end_eq [] _ hp hr
  | cons t rest =>
    rw [h.cons]
    apply h.congr (h.moves rest) hp
    intro b q hq hlt
    rw [hr, List.length_cons] at hlt
    exact h.counted_eq hq (by omega) (Nat.le_refl _)

end Loop

structure Advances (element : Place → Option Rule) : Prop where
  reads : ∀ {p r}, element p = some r → r.Reads
  takes : ∀ {p r}, p.Consistent → element p = some r → r.TakesAt p

def elementThen (element : Place → Option Rule) (next : Rule) : Rule := fun p =>
  match element p with
  | none => ([], p)
  | some r => seq [r, next] p

theorem loop_many {element : Place → Option Rule} (h : Advances element) :
    Loop (fun next => fun () => elementThen element (next ()))
      (fun clock => fun () => manyFrom element clock) where
  moves clock _ := (reads_manyFrom (fun _ _ => h.reads) clock).moves
  nil {_ p} hp hn := by
    cases he : element p with
    | none => simp [manyFrom, elementThen, he]
    | some r =>
      have ht := h.takes hp he
      simp [TakesAt, hn] at ht
  cons {_ _ _ p} := by
    cases he : element p with
    | none => simp [manyFrom, elementThen, he]
    | some r => simp [manyFrom, elementThen, he, seq_cons_apply, seq_nil_apply]
  congr {next next' _ p} _ hp hn := by
    simp only [elementThen]
    split
    · rfl
    · rename_i r he
      have hq := consistent (h.reads he) hp
      exact seq_congr rfl (seq_congr (hn () _ hq (h.takes hp he)) rfl)

theorem many_eq {element : Place → Option Rule} (h : Advances element) {p : Place}
    (hp : p.Consistent) : many element p = elementThen element (many element) p :=
  (loop_many h).eq () hp

end Rule

/-- Tokens that close a construct and start no argument: a phrase takes nothing before them. -/
def Kind.stays (k : Kind) : Bool := k.closes && !k.startsArgument

theorem Kind.closes_of_stays {k : Kind} :
    k.stays = false → k ≠ .quote → k ≠ .indentedQuote → k.closes = false := by
  cases k <;> decide

theorem Kind.startsAttr_iff {k : Kind} :
    k.startsAttr ↔ k = .ident ∨ k = .orKw ∨ k = .quote ∨ k = .dollarBrace := by
  cases k <;> decide

namespace Grammar

open Rule

theorem peek_of_dotAttrAhead {p : Place} (h : dotAttrAhead p = true) : p.peek = some .dot := by
  simp only [dotAttrAhead, Bool.and_eq_true, beq_iff_eq] at h
  exact h.1

theorem takesAt_node_token {kind : Kind} {rs : List Rule} {p : Place} {k : Kind}
    (hp : p.peek = some k) (hrs : ∀ r ∈ rs, r.Reads) :
    (node kind (seq (token :: rs))).TakesAt p :=
  takesAt_node (takesAt_seq (takesAt_token (by simpa using hp)) hrs)

theorem takesAt_error {p : Place} {k : Kind} (hp : p.peek = some k) :
    (node .error token).TakesAt p :=
  takesAt_node (takesAt_token (by simpa using hp))

theorem takesAt_paramName {p : Place} {k : Kind} (hp : p.peek = some k) : paramName.TakesAt p :=
  takesAt_node (takesAt_token (by simpa using hp))

theorem takesAt_recover {problem : Problem} {p : Place} {k : Kind} (hp : p.peek = some k)
    (hk : k.closes = false) (he : problem ≠ .nestedTooDeeply) : (recover problem).TakesAt p := by
  apply takesAt_seq_of_rest (reads_report he)
  apply takesAt_seq_single
  have ht : (node .error token).TakesAt (p.report problem) := takesAt_error (by simpa using hp)
  simpa [TakesAt, report_apply, onlyIf, hp, hk] using ht

/-- The phrase takes a token, unless a closing token is ahead. -/
def Starts (r : Rule) : Prop :=
  ∀ {p k}, p.Consistent → p.peek = some k → k.stays = false → r.TakesAt p

theorem starts_giveUp : Starts giveUp := fun hc hp _ => takesAt_giveUp (hc.gaveUp_eq_false hp) hp

section

variable {inner : Phrase → Rule} (h : ∀ phrase, (inner phrase).Reads)

include h

theorem takesAt_hole {p : Place} {k : Kind} (kind : Kind) (hp : p.peek = some k) :
    (hole inner kind).TakesAt p :=
  takesAt_node_token hp (by simp [h])

theorem takesAt_string {p : Place} {k : Kind} (opening : Kind) (hp : p.peek = some k) :
    (string inner opening).TakesAt p :=
  takesAt_node_token hp (by simp [reads_stringParts h, reads_ifPeek])

theorem takesAt_attr {p : Place} {k : Kind} (hp : p.peek = some k) (hk : k.startsAttr) :
    (attr inner).TakesAt p := by
  apply takesAt_node
  rw [← Place.peek_skipTrivia] at hp
  simp only [TakesAt]
  split
  · exact takesAt_token hp
  · exact takesAt_token hp
  · exact takesAt_string h .quote hp
  · exact takesAt_hole h .dynamic hp
  · obtain rfl | rfl | rfl | rfl := Kind.startsAttr_iff.mp hk <;> simp_all

theorem takesAt_attrPath {p : Place} {k : Kind} (hp : p.peek = some k) (hk : k.startsAttr) :
    (attrPath inner).TakesAt p :=
  takesAt_node (takesAt_seq (takesAt_attr h (by simpa using hp) hk) (by simp [reads_dotAttrs h]))

theorem takesAt_dotPath {p : Place} {k : Kind} (hp : p.peek = some k) :
    (seq [token, attrPath inner]).TakesAt p :=
  takesAt_seq (takesAt_token hp) (by simp [reads_attrPath h])

theorem advances_stringPart : Advances (stringPart inner) where
  reads := reads_stringPart h
  takes {p r} _ hr := by
    simp only [stringPart] at hr
    split at hr <;> cases hr
    · exact takesAt_token (by assumption)
    · exact takesAt_hole h _ (by assumption)

theorem advances_pathPart : Advances (pathPart inner) where
  reads := reads_pathPart h
  takes {p r} _ hr := by
    simp only [pathPart] at hr
    split at hr <;> cases hr
    · exact takesAt_token (Place.peek_of_head (by assumption) rfl)
    · exact takesAt_hole h _ (Place.peek_of_head (by assumption) rfl)

theorem advances_dotAttr :
    Advances fun p => if dotAttrAhead p then some (seq [token, attr inner]) else none where
  reads := reads_dotAttr h
  takes {p r} _ hr := by
    obtain ⟨hd, hr⟩ := Option.ite_none_right_eq_some.mp hr
    cases hr
    exact takesAt_seq (takesAt_token (peek_of_dotAttrAhead hd)) (by simp [reads_attr h])

theorem advances_inheritedName : Advances (inheritedName inner) where
  reads := reads_inheritedName h
  takes {p r} _ hr := by
    obtain ⟨hk, hr⟩ := Option.ite_none_right_eq_some.mp hr
    cases hr
    obtain ⟨k, hp, hk⟩ := (Option.any_eq_true _ _).mp hk
    exact takesAt_node (takesAt_attr h (by simpa using hp) hk)

theorem takesAt_inherit {p : Place} {k : Kind} (hp : p.peek = some k) :
    (inherit inner).TakesAt p :=
  takesAt_node_token hp (by simp [reads_inheritFrom h, reads_inheritedNames h])

theorem takesAt_attrPathValue {p : Place} {k : Kind} (hp : p.peek = some k) (hk : k.startsAttr) :
    (attrPathValue inner).TakesAt p :=
  takesAt_node (takesAt_seq (takesAt_attrPath h (by simpa using hp) hk) (by simp [h]))

theorem advances_binding (terminator : Kind) : Advances (binding inner terminator) where
  reads := reads_binding h
  takes {p r} _ hr := by
    obtain ⟨k, hp, hr⟩ := Option.bind_eq_some_iff.mp hr
    split at hr
    · cases hr
    split at hr
    · cases hr
      exact takesAt_inherit h hp
    split at hr
    · rename_i hk
      cases hr
      exact takesAt_attrPathValue h hp hk
    split at hr
    · cases hr
    · cases hr
      apply takesAt_seq_of_rest (reads_report (by simp))
      exact takesAt_seq_single (takesAt_error (by simpa [report_apply] using hp))

theorem takesAt_attrSet {p : Place} {k : Kind} (hp : p.peek = some k)
    (hk : k = .leftBrace ∨ k = .recKw) : (attrSet inner).TakesAt p := by
  apply takesAt_node
  rw [← Place.peek_skipTrivia] at hp
  have hb := reads_bindings h .rightBrace
  obtain rfl | rfl := hk
  · apply takesAt_seq_of_rest (reads_when _ reads_token)
    rw [when_neg (by simp [hp])]
    exact takesAt_seq (takesAt_expect hp) (by simp [hb])
  · exact takesAt_seq (takesAt_when hp (takesAt_token hp)) (by simp [hb])

theorem takesAt_nameLambda {p : Place} {k : Kind} (hp : p.peek = some k) :
    (nameLambda inner).TakesAt p := by
  apply takesAt_node
  exact takesAt_seq (takesAt_paramName (by simpa using hp)) (by simp [h])

theorem takesAt_pattern {p : Place} {k : Kind} (hp : p.peek = some k)
    (hk : k = .leftBrace ∨ k = .ident) : (pattern inner).TakesAt p := by
  apply takesAt_node
  rw [← Place.peek_skipTrivia] at hp
  have hb : (node .patternBind (seq [paramName, expect .atSign])).Reads :=
    reads_node (by simp) (reads_seq (by simp))
  have hf := reads_formals h
  have hn : («when» .atSign patternName).Reads := reads_when _ reads_patternName
  obtain rfl | rfl := hk
  · apply takesAt_seq_of_rest (reads_when _ hb)
    rw [when_neg (by simp [hp])]
    exact takesAt_seq (takesAt_expect hp) (by simp [hf, hn])
  · have hname : paramName.TakesAt p.skipTrivia.skipTrivia := takesAt_paramName (by simpa using hp)
    exact takesAt_seq (takesAt_when hp (takesAt_node (takesAt_seq hname (by simp))))
      (by simp [hf, hn])

theorem takesAt_patternLambda {p : Place} {k : Kind} (hp : p.peek = some k)
    (hk : k = .leftBrace ∨ k = .ident) : (patternLambda inner).TakesAt p :=
  takesAt_node (takesAt_seq (takesAt_pattern h (by simpa using hp) hk) (by simp [h]))

variable (hs : ∀ phrase, Starts (inner phrase))

include hs

theorem starts_selectFrom (clock : List Token) : Starts (selectFrom inner clock) := by
  intro p k hc hp hk
  have ha : (inner .atom).TakesAt p.skipTrivia := hs .atom hc.skipTrivia (by simpa using hp) hk
  cases clock with
  | nil => exact takesAt_trivia_seq (takesAt_seq_single ha)
  | cons c clock =>
    apply takesAt_trivia_seq
    apply takesAt_seq_single
    exact takesAt_andThen ha (readsOn_selectTail h (reads_selectFrom h clock))

theorem starts_select : Starts (select inner) := fun {p _} => starts_selectFrom h hs p.rest

theorem advances_listElement : Advances (listElement inner) where
  reads := reads_listElement h
  takes {p r} hc hr := by
    obtain ⟨k, hp, hr⟩ := Option.bind_eq_some_iff.mp hr
    split at hr
    · rename_i hk
      cases hr
      exact starts_select h hs hc hp (by simp [Kind.stays, hk])
    split at hr
    · cases hr
    · rename_i hk
      cases hr
      exact takesAt_recover hp (by simpa using hk) (by simp)

theorem starts_application : Starts (application inner) := by
  intro p k hc hp hk
  apply takesAt_trivia_seq
  apply takesAt_seq_single
  apply takesAt_andThen (starts_select h hs hc.skipTrivia (by simpa using hp) hk)
  exact readsOn_counted (readsOn_applyFrom h)

theorem starts_leftmost : Starts (leftmost inner) := by
  intro p k hc hp hk
  simp only [TakesAt, leftmost]
  split
  · exact takesAt_node_token hp (by simp [h])
  · exact starts_application h hs hc hp hk

theorem starts_operand (power : Nat) : Starts (operand inner power) := by
  intro p k hc hp hk
  apply takesAt_trivia_seq
  apply takesAt_seq_single
  apply takesAt_andThen (starts_leftmost h hs hc.skipTrivia (by simpa using hp) hk)
  exact readsOn_counted fun clock => readsOn_operatorsFrom h clock power

theorem starts_expr : Starts (expr inner) := by
  intro p k hc hp hk
  simp only [TakesAt, expr]
  split
  · exact takesAt_node_token hp (by simp [h, reads_bindings h])
  · exact takesAt_node_token hp (by simp [h])
  · exact takesAt_node_token hp (by simp [h])
  · exact takesAt_node_token hp (by simp [h])
  · rename_i hi
    split
    · exact takesAt_nameLambda h hi
    split
    · exact takesAt_patternLambda h hi (.inr rfl)
    · exact starts_operand h hs 0 hc hp hk
  · rename_i hb
    split
    · exact takesAt_patternLambda h hb (.inl rfl)
    · exact starts_operand h hs 0 hc hp hk
  · exact starts_operand h hs 0 hc hp hk

theorem starts_atom : Starts (atom inner) := by
  intro p k hc hp hk
  have hnode : ∀ kind, (node kind token).TakesAt p :=
    fun kind => takesAt_node (takesAt_token (by simpa using hp))
  simp only [TakesAt, atom]
  split
  iterate 6 · exact hnode _
  · exact takesAt_string h .quote hp
  · exact takesAt_string h .indentedQuote hp
  · exact takesAt_node_token hp (by simp [reads_pathParts h])
  · exact takesAt_node_token hp (by simp [h])
  · exact takesAt_node_token hp (by simp [reads_listElements h])
  · exact takesAt_attrSet h (by assumption) (.inl rfl)
  · exact takesAt_attrSet h (by assumption) (.inr rfl)
  iterate 4 · exact hs .expr hc hp hk
  · apply takesAt_recover hp _ (by simp)
    apply Kind.closes_of_stays hk
    · rintro rfl
      simp_all
    · rintro rfl
      simp_all

theorem starts_phrase (phrase : Phrase) : Starts (Grammar.phrase inner phrase) := by
  cases phrase with
  | expr => exact starts_expr h hs
  | atom => exact starts_atom h hs
  | operand power => exact starts_operand h hs power

end

theorem starts_nested (levels : Nat) (phrase : Phrase) : Starts (nested levels phrase) := by
  induction levels generalizing phrase with
  | zero => exact starts_giveUp
  | succ levels ih => exact starts_phrase (reads_nested levels) ih phrase

def arguments (inner : Phrase → Rule) (function : List Tree) : Rule :=
  fun p => applyFrom inner p.rest function p

def operators (inner : Phrase → Rule) (power : Nat) (left : List Tree) : Rule :=
  fun p => operatorsFrom inner p.rest power left p

def argumentThen (inner : Phrase → Rule) (next : List Tree → Rule) (function : List Tree) : Rule :=
  fun p =>
    if p.peek.any Kind.startsArgument then (wrap .apply function (select inner)).andThen next p
    else (function, p)

def operatorThen (inner : Phrase → Rule) (next : Nat → List Tree → Rule) (power : Nat)
    (left : List Tree) : Rule := fun p =>
  if p.peek = some .question then
    if hasAttrPower < power then (left, p)
    else (wrap .hasAttr left (seq [token, attrPath inner])).andThen (next power) p
  else
    match p.peek.bind Kind.bindingPower with
    | none => (left, p)
    | some (leftPower, rightPower) =>
      if leftPower < power then (left, p)
      else
        (wrap .binaryOp left
          (seq [token, trivia, (leftmost inner).andThen (next rightPower)])).andThen (next power) p

def formalThen (inner : Phrase → Rule) (next : Rule) : Rule := fun p =>
  match p.peek with
  | none | some .rightBrace => ([], p)
  | some kind => seq [formal inner kind, «when» .comma (seq [token, next])] p

section

variable {inner : Phrase → Rule} (h : ∀ phrase, (inner phrase).Reads)

include h

theorem selectTail_congr {fallback fallback' : Rule} {base : List Tree} {q : Place}
    (hq : q.Consistent)
    (hf : ∀ s, s.Consistent → s.rest.length < q.rest.length → fallback s = fallback' s) :
    selectTail inner fallback base q = selectTail inner fallback' base q := by
  rw [selectTail, selectTail]
  by_cases hd : q.peek = some .dot
  · rw [if_neg (not_not_intro hd), if_neg (not_not_intro hd)]
    split
    · have ht : (token q).2.rest.length < q.rest.length := takesAt_token hd
      have hc := consistent (reads_attrPath h) (consistent reads_token hq)
      have hl := (reads_attrPath h (token q).2).rest_length_le
      apply wrap_congr
      apply seq_congr rfl
      apply seq_congr rfl
      generalize (attrPath inner (token q).2).2 = s at hc hl
      apply seq_congr _ rfl
      by_cases hp : s.peek = some .orKw
      · have hl' := (reads_token s).rest_length_le
        rw [when_pos hp, when_pos hp]
        exact seq_congr rfl (seq_congr (hf _ (consistent reads_token hc) (by omega)) rfl)
      · rw [when_neg hp, when_neg hp]
    · rfl
  · rw [if_pos hd, if_pos hd]

theorem loop_select :
    Loop (fun next => fun () => seq [trivia, (inner .atom).andThen (selectTail inner (next ()))])
      (fun clock => fun () => selectFrom inner clock) where
  moves clock _ := (reads_selectFrom h clock).moves
  nil {_ p} hp hn := by
    have hle := (h .atom (trivia p).2).rest_length_le
    have hle' := (reads_trivia p).rest_length_le
    rw [hn, List.length_nil] at hle'
    have hq : (inner .atom (trivia p).2).2.rest = [] := List.length_eq_zero_iff.mp (by omega)
    have hk : (inner .atom (trivia p).2).2.peek ≠ some .dot := by simp [Place.peek_nil hq]
    apply seq_congr rfl
    exact seq_congr (by simp [andThen, selectTail, hk]) rfl
  cons := rfl
  congr {next next' _ p} _ hp hn := by
    have hle := (reads_trivia p).rest_length_le
    have hle' := (h .atom (trivia p).2).rest_length_le
    have hq := consistent (h .atom) (consistent reads_trivia hp)
    apply seq_congr rfl
    apply seq_congr _ rfl
    apply andThen_congr rfl
    exact selectTail_congr h hq fun s hs hlt => hn () s hs (by omega)

theorem select_eq {p : Place} (hp : p.Consistent) :
    select inner p = seq [trivia, (inner .atom).andThen (selectTail inner (select inner))] p :=
  (loop_select h).eq () hp

theorem loop_arguments (hs : ∀ phrase, Starts (inner phrase)) :
    Loop (argumentThen inner) (applyFrom inner) where
  moves clock := (readsOn_applyFrom h clock).moves
  nil {_ p} _ hn := by simp [applyFrom, argumentThen, Place.peek_nil hn]
  cons := rfl
  congr {next next' function p} _ hp hn := by
    rw [argumentThen, argumentThen]
    by_cases ha : p.peek.any Kind.startsArgument = true
    · rw [if_pos ha, if_pos ha]
      obtain ⟨k, hk, ha⟩ := (Option.any_eq_true _ _).mp ha
      have ht : (select inner).TakesAt p := starts_select h hs hp hk (by simp [Kind.stays, ha])
      exact andThen_congr rfl (hn _ _ (consistent (reads_select h) hp) ht)
    · rw [if_neg ha, if_neg ha]

theorem arguments_eq (hs : ∀ phrase, Starts (inner phrase)) {function : List Tree} {p : Place}
    (hp : p.Consistent) :
    arguments inner function p = argumentThen inner (arguments inner) function p :=
  (loop_arguments h hs).eq function hp

theorem loop_operators :
    Loop (fun next (a : Nat × List Tree) => operatorThen inner (fun b ts => next (b, ts)) a.1 a.2)
      (fun clock a => operatorsFrom inner clock a.1 a.2) where
  moves clock a := (readsOn_operatorsFrom h clock a.1).moves a.2
  nil {_ p} _ hn := by simp [operatorsFrom, operatorThen, Place.peek_nil hn]
  cons := rfl
  congr {next next' a p} hm hp hn := by
    have hc := consistent reads_token hp
    rw [operatorThen, operatorThen]
    by_cases hk : p.peek = some .question
    · rw [if_pos hk, if_pos hk]
      split
      · rfl
      · have hd := consistent (reads_dotPath h) hp
        have ht := takesAt_dotPath h hk
        apply andThen_congr rfl
        simp only [wrap]
        exact hn _ _ hd ht
    · rw [if_neg hk, if_neg hk]
      split
      · rfl
      · rename_i leftPower rightPower hk
        split
        · rfl
        · obtain ⟨k, hk, -⟩ := Option.bind_eq_some_iff.mp hk
          have ht : (token p).2.rest.length < p.rest.length := takesAt_token hk
          have hc' := consistent reads_trivia hc
          have hle := (reads_trivia (token p).2).rest_length_le
          have hl := (reads_leftmost h (trivia (token p).2).2).rest_length_le
          have hr :
              (leftmost inner).andThen (fun ts => next (rightPower, ts)) (trivia (token p).2).2 =
              (leftmost inner).andThen (fun ts => next' (rightPower, ts)) (trivia (token p).2).2 :=
            andThen_congr rfl (hn _ _ (consistent (reads_leftmost h) hc') (by omega))
          have hm' := moves_andThen (reads_leftmost h).moves fun ts => hm (rightPower, ts)
          have hl' := hm'.rest_length_le (trivia (token p).2).2
          apply andThen_congr
          · exact wrap_congr _ _ (seq_congr rfl (seq_congr rfl (seq_congr hr rfl)))
          · exact hn _ _ (hm'.consistent hc') (Nat.lt_of_le_of_lt hl' (by omega))

theorem operators_eq {power : Nat} {left : List Tree} {p : Place} (hp : p.Consistent) :
    operators inner power left p = operatorThen inner (operators inner) power left p :=
  (loop_operators h).eq (power, left) hp

theorem loop_formals :
    Loop (fun next => fun () => formalThen inner (next ()))
      (fun clock => fun () => formalsFrom inner clock) where
  moves clock _ := (reads_formalsFrom h clock).moves
  nil {_ p} _ hn := by simp [formalsFrom, formalThen, skip, Place.peek_nil hn]
  cons := rfl
  congr {next next' _ p} _ hp hn := by
    simp only [formalThen]
    split
    · rfl
    · rfl
    · rename_i kind _ hk
      have hle := (reads_formal h kind p).rest_length_le
      have hc := consistent (reads_formal h kind) hp
      apply seq_congr rfl
      apply seq_congr _ rfl
      generalize (formal inner kind p).2 = q at hle hc
      by_cases hp : q.peek = some .comma
      · have ht : (token q).2.rest.length < q.rest.length := takesAt_token hp
        rw [when_pos hp, when_pos hp]
        exact seq_congr rfl
          (seq_congr (hn () _ (consistent reads_token hc) (Nat.lt_of_lt_of_le ht hle)) rfl)
      · rw [when_neg hp, when_neg hp]

theorem formals_eq {p : Place} (hp : p.Consistent) :
    formals inner p = formalThen inner (formals inner) p :=
  (loop_formals h).eq () hp

end

end Grammar

end NixScope.Syntax
