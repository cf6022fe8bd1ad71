import NixScope.Proofs.Loops

namespace NixScope.Syntax

namespace Place

def Leads (p q : Place) : Prop := ∃ ts, Reads p ts q

theorem Leads.refl (p : Place) : p.Leads p := ⟨[], .skip p⟩

theorem Leads.trans {p q s : Place} (h : p.Leads q) (h' : q.Leads s) : p.Leads s := by
  obtain ⟨ts, ht⟩ := h
  obtain ⟨us, hu⟩ := h'
  exact ⟨ts ++ us, ht.append hu⟩

theorem Leads.consistent {p q : Place} (h : p.Leads q) (hp : p.Consistent) : q.Consistent := by
  obtain ⟨ts, ht⟩ := h
  exact ht.consistent hp

theorem reads_skipTrivia (p : Place) : p.Reads (Rule.trivia p).1 p.skipTrivia := by
  have h := Rule.reads_trivia p
  rwa [Rule.trivia_eq] at h ⊢

theorem leads_skipTrivia (p : Place) : p.Leads p.skipTrivia := ⟨_, p.reads_skipTrivia⟩

@[elab_as_elim]
theorem induct_rest {motive : Place → Prop}
    (step : ∀ p, (∀ q, q.rest.length < p.rest.length → motive q) → motive p) (p : Place) :
    motive p :=
  (measure fun p : Place => p.rest.length).wf.induction p step

end Place

theorem Rule.Reads.reads {r : Rule} (h : r.Reads) {p q : Place} {ts : List Tree}
    (he : r p = (ts, q)) : p.Reads ts q := by
  have hp := h p
  rwa [he] at hp

theorem Rule.Reads.leads {r : Rule} (h : r.Reads) {p q : Place} {ts : List Tree}
    (he : r p = (ts, q)) : p.Leads q := ⟨ts, h.reads he⟩

theorem Rule.Reads.leads_apply {r : Rule} (h : r.Reads) (p : Place) : p.Leads (r p).2 := h.moves p

def Kind.leftPower : Kind → Option Nat
  | question => some Grammar.hasAttrPower
  | k => k.bindingPower.map Prod.fst

namespace Grammar

open Rule

def Stops (power : Nat) (p : Place) : Prop :=
  ∀ l, p.peek.bind Kind.leftPower = some l → l < power

section

variable (inner : Phrase → Rule)

inductive Selection : Place → List Tree → Place → Prop
  | atom {p q : Place} {ts : List Tree} (ha : inner .atom p = (ts, q)) (hd : q.peek ≠ some .dot) :
      Selection p ts q
  | path {p q s : Place} {ts us : List Tree} (ha : inner .atom p = (ts, q))
      (hd : dotAttrAhead q = true) (hs : seq [token, attrPath inner] q = (us, s))
      (ho : s.peek ≠ some .orKw) : Selection p [.branch .select (ts ++ us)] s
  | fallback {p q s u : Place} {ts us vs : List Tree} (ha : inner .atom p = (ts, q))
      (hd : dotAttrAhead q = true) (hs : seq [token, attrPath inner] q = (us, s))
      (ho : s.peek = some .orKw) (hf : Selection (token s).2.skipTrivia vs u) :
      Selection p
        [.branch .select (ts ++ us ++ (token s).1 ++ (trivia (token s).2).1 ++ vs)] u
  | broken {p q s : Place} {ts us : List Tree} (ha : inner .atom p = (ts, q))
      (hs : seq [report .noAttrAfterDot, node .error token] q = (us, s)) (hd : q.peek = some .dot) :
      Selection p (ts ++ us) s

inductive Application : Place → List Tree → Place → Prop
  | selection {p q : Place} {ts : List Tree} (hs : Selection inner p ts q) : Application p ts q
  | apply {p q s : Place} {ts us : List Tree} (hf : Application p ts q)
      (ha : q.peek.any Kind.startsArgument = true) (hs : Selection inner q.skipTrivia us s) :
      Application p [.branch .apply (ts ++ (trivia q).1 ++ us)] s

/-- An operand and the operators behind it that have been taken so far, all of which bind at least
as strongly as the given power. -/
inductive Operation : Nat → Place → List Tree → Place → Prop
  | unary {power r : Nat} {p q : Place} {ts : List Tree}
      (hp : p.peek.bind Kind.unaryPower = some r)
      (hs : seq [token, inner (.operand r)] p = (ts, q)) :
      Operation power p [.branch .unaryOp ts] q
  | application {power : Nat} {p q : Place} {ts : List Tree} (ha : Application inner p ts q)
      (hu : p.peek.bind Kind.unaryPower = none) (hn : q.peek.any Kind.startsArgument = false) :
      Operation power p ts q
  | hasAttr {power : Nat} {p q s : Place} {ts us : List Tree} (hl : Operation power p ts q)
      (hk : q.peek = some .question) (hp : power ≤ hasAttrPower)
      (hs : seq [token, attrPath inner] q = (us, s)) :
      Operation power p [.branch .hasAttr (ts ++ us)] s
  | binaryOp {power l r : Nat} {k : Kind} {p q s : Place} {ts us : List Tree}
      (hl : Operation power p ts q) (hk : q.peek = some k) (hb : k.bindingPower = some (l, r))
      (hp : power ≤ l) (hr : Operation r (token q).2.skipTrivia us s) (hs : Stops r s) :
      Operation power p [.branch .binaryOp (ts ++ (token q).1 ++ (trivia (token q).2).1 ++ us)] s

end

section

variable {inner : Phrase → Rule} (h : ∀ phrase, (inner phrase).Reads)

include h

omit h in
theorem reads_brokenDot : (seq [report .noAttrAfterDot, node .error token]).Reads :=
  reads_seq (by simp [reads_report, reads_node])

theorem Selection.reads {p q : Place} {ts : List Tree} (hs : Selection inner p ts q) :
    p.Reads ts q := by
  induction hs with
  | atom ha hd => exact (h .atom).reads ha
  | path ha hd hs ho =>
    exact .node (by simp) (((h .atom).reads ha).append ((reads_dotPath h).reads hs))
  | @fallback p q s u ts us vs ha hd hs ho hf ih =>
    have hl := ((h .atom).reads ha).append ((reads_dotPath h).reads hs)
    have ht := (hl.append (reads_token s)).append (token s).2.reads_skipTrivia
    exact .node (by simp) (ht.append ih)
  | broken ha hs hd => exact ((h .atom).reads ha).append (reads_brokenDot.reads hs)

theorem Selection.leads {p q : Place} {ts : List Tree} (hs : Selection inner p ts q) :
    p.Leads q := ⟨ts, hs.reads h⟩

theorem Application.reads {p q : Place} {ts : List Tree} (ha : Application inner p ts q) :
    p.Reads ts q := by
  induction ha with
  | selection hs => exact hs.reads h
  | apply hf ha hs ih =>
    exact .node (by simp) ((ih.append (Place.reads_skipTrivia _)).append (hs.reads h))

theorem Operation.reads {power : Nat} {p q : Place} {ts : List Tree}
    (ho : Operation inner power p ts q) : p.Reads ts q := by
  induction ho with
  | @unary power r p q ts hp hs =>
    have hr : (seq [token, inner (.operand r)]).Reads := reads_seq (by simp [h])
    exact .node (by simp) (hr.reads hs)
  | application ha => exact ha.reads h
  | hasAttr hl hk hp hs ih => exact .node (by simp) (ih.append ((reads_dotPath h).reads hs))
  | binaryOp hl hk hb hp hr hs ih ih' =>
    have ht := (ih.append (reads_token _)).append (Place.reads_skipTrivia _)
    exact .node (by simp) (ht.append ih')

theorem Operation.leads {power : Nat} {p q : Place} {ts : List Tree}
    (ho : Operation inner power p ts q) : p.Leads q := ⟨ts, ho.reads h⟩

theorem selection_tail {p q : Place} {ts : List Tree} (ha : inner .atom p = (ts, q))
    (hc : q.Consistent)
    (hf : ∀ s, s.rest.length < q.rest.length → s.Consistent → ∃ us u,
      select inner s = ((trivia s).1 ++ us, u) ∧ Selection inner s.skipTrivia us u) :
    ∃ us s, selectTail inner (select inner) ts q = (us, s) ∧ Selection inner p us s := by
  rw [selectTail]
  by_cases hd : q.peek = some .dot
  · rw [if_neg (not_not_intro hd)]
    by_cases hda : dotAttrAhead q = true
    · have hc' := consistent (reads_dotPath h) hc
      have hlen : (seq [token, attrPath inner] q).2.rest.length < q.rest.length :=
        takesAt_dotPath h hd
      have hsplit := seq_append_apply [token, attrPath inner]
        [«when» .orKw (seq [token, select inner])] q
      simp only [List.cons_append, List.nil_append] at hsplit
      rw [if_pos hda, wrap, hsplit]
      generalize hs : seq [token, attrPath inner] q = a at hc' hlen
      obtain ⟨us, s⟩ := a
      dsimp only at hc' hlen
      simp only [seq_cons_apply, seq_nil_apply, List.append_nil]
      by_cases ho : s.peek = some .orKw
      · have hle := (reads_token s).rest_length_le
        obtain ⟨vs, u, he, hsel⟩ := hf (token s).2 (by omega) (consistent reads_token hc')
        simp only [when_pos ho, seq_cons_apply, seq_nil_apply, List.append_nil, he]
        refine ⟨_, _, ?_, .fallback ha hda hs ho hsel⟩
        simp only [List.append_assoc]
      · simp only [when_neg ho, List.append_nil]
        exact ⟨_, _, rfl, .path ha hda hs ho⟩
    · rw [if_neg hda]
      exact ⟨_, _, rfl, .broken ha rfl hd⟩
  · rw [if_pos hd]
    exact ⟨ts, q, rfl, .atom ha hd⟩

/-- What `select` builds behind the blanks ahead is a selection. -/
theorem selection_select {p : Place} (hp : p.Consistent) :
    ∃ ts q, select inner p = ((trivia p).1 ++ ts, q) ∧ Selection inner p.skipTrivia ts q := by
  induction p using Place.induct_rest with
  | step p ih =>
    have hc := consistent (h .atom) hp.skipTrivia
    have hle := (h .atom p.skipTrivia).rest_length_le
    have hskip := p.rest_skipTrivia_length_le
    rw [select_eq h hp]
    simp only [seq_cons_apply, seq_nil_apply, List.append_nil, andThen, trivia_eq p]
    generalize ha : inner .atom p.skipTrivia = a at hc hle
    obtain ⟨ts, q⟩ := a
    dsimp only at hc hle
    obtain ⟨us, s, he, hsel⟩ := selection_tail h ha hc fun s hs => ih s (by omega)
    rw [he]
    exact ⟨us, s, rfl, hsel⟩

theorem application_arguments (hs : ∀ phrase, Starts (inner phrase)) {p q : Place}
    {ts : List Tree} (hq : q.Consistent) (ha : Application inner p ts q) :
    ∃ us s, arguments inner ts q = (us, s) ∧ Application inner p us s ∧
      s.peek.any Kind.startsArgument = false := by
  induction q using Place.induct_rest generalizing ts with
  | step q ih =>
    rw [arguments_eq h hs hq, argumentThen]
    by_cases hk : q.peek.any Kind.startsArgument = true
    · obtain ⟨k, hp, hk'⟩ := (Option.any_eq_true _ _).mp hk
      have ht : (select inner q).2.rest.length < q.rest.length :=
        starts_select h hs hq hp (by simp [Kind.stays, hk'])
      have hc := consistent (reads_select h) hq
      obtain ⟨us, s, he, hsel⟩ := selection_select h hq
      rw [if_pos hk]
      simp only [andThen, wrap]
      rw [he] at ht hc ⊢
      apply ih s ht hc
      rw [← List.append_assoc]
      exact .apply ha hk hsel
    · rw [if_neg hk]
      exact ⟨ts, q, rfl, ha, by simpa using hk⟩

/-- What `application` builds behind the blanks ahead is an application, and no argument that it
should have taken is left. -/
theorem application_application (hs : ∀ phrase, Starts (inner phrase)) {p : Place}
    (hp : p.Consistent) :
    ∃ ts q, application inner p = ((trivia p).1 ++ ts, q) ∧
      Application inner p.skipTrivia ts q ∧ q.peek.any Kind.startsArgument = false := by
  obtain ⟨ts, q, he, hsel⟩ := selection_select h hp.skipTrivia
  have hc := consistent (reads_select h) hp.skipTrivia
  rw [trivia_skipTrivia, List.nil_append] at he
  rw [Place.skipTrivia_skipTrivia] at hsel
  rw [he] at hc
  obtain ⟨us, s, ha, happ⟩ := application_arguments h hs hc (.selection hsel)
  refine ⟨us, s, ?_, happ⟩
  simp only [arguments] at ha
  simp only [application, seq_cons_apply, seq_nil_apply, trivia_eq p, andThen, he, ha,
    List.append_nil]

theorem operation_leftmost (hs : ∀ phrase, Starts (inner phrase)) {p : Place} (power : Nat)
    (hp : p.Consistent) :
    ∃ ts q, leftmost inner p.skipTrivia = (ts, q) ∧
      Operation inner power p.skipTrivia ts q := by
  simp only [leftmost]
  split
  · rename_i r hr
    refine ⟨_, _, ?_, .unary hr rfl⟩
    simp only [node, trivia_skipTrivia, List.nil_append]
    rfl
  · rename_i hu
    obtain ⟨ts, q, he, ha, hn⟩ := application_application h hs hp.skipTrivia
    rw [trivia_skipTrivia, List.nil_append] at he
    rw [Place.skipTrivia_skipTrivia] at ha
    exact ⟨ts, q, he, .application ha hu hn⟩

omit h in
theorem stops_of_question {power : Nat} {q : Place} (hk : q.peek = some .question)
    (hp : hasAttrPower < power) : Stops power q := by
  intro l hl
  simp only [hk, Kind.leftPower, Option.bind_some, Option.some.injEq] at hl
  omega

omit h in
theorem bind_leftPower {q : Place} (hk : q.peek ≠ some .question) :
    q.peek.bind Kind.leftPower = (q.peek.bind Kind.bindingPower).map Prod.fst := by
  cases hq : q.peek with
  | none => rfl
  | some k =>
    cases k <;> first | rfl | exact absurd hq hk

theorem operation_right (hs : ∀ phrase, Starts (inner phrase)) (r : Nat) {k : Kind} {q : Place}
    (hq : q.Consistent) (hk : q.peek = some k)
    (ih : ∀ u, u.rest.length < q.rest.length → u.Consistent → ∀ p ts,
      Operation inner r p ts u → ∃ us s, operators inner r ts u = (us, s) ∧
        Operation inner r p us s ∧ Stops r s) :
    ∃ us s, seq [token, trivia, (leftmost inner).andThen (operators inner r)] q =
        ((token q).1 ++ (trivia (token q).2).1 ++ us, s) ∧
      Operation inner r (token q).2.skipTrivia us s ∧ Stops r s ∧
      s.rest.length < q.rest.length ∧ s.Consistent := by
  have ht : (token q).2.rest.length < q.rest.length := takesAt_token hk
  have hskip := (token q).2.rest_skipTrivia_length_le
  have hc := consistent reads_token hq
  obtain ⟨vs, u, hv, hlm⟩ := operation_leftmost h hs r hc
  have hle := (reads_leftmost h (token q).2.skipTrivia).rest_length_le
  have hcu := consistent (reads_leftmost h) hc.skipTrivia
  rw [hv] at hle hcu
  dsimp only at hle hcu
  obtain ⟨us, s, he, hright, hstop⟩ := ih u (by omega) hcu _ _ hlm
  have hle' := (hright.reads h).rest_length_le
  have hcs := (hright.reads h).consistent hc.skipTrivia
  refine ⟨us, s, ?_, hright, hstop, by omega, hcs⟩
  simp only [andThen, seq_cons_apply, seq_nil_apply, trivia_eq (token q).2, hv, he,
    List.append_nil, List.append_assoc]

/-- Operators are taken as long as one that binds strongly enough is ahead. -/
theorem operation_operators (hs : ∀ phrase, Starts (inner phrase)) {power : Nat} {p q : Place}
    {ts : List Tree} (hq : q.Consistent) (ho : Operation inner power p ts q) :
    ∃ us s, operators inner power ts q = (us, s) ∧ Operation inner power p us s ∧
      Stops power s := by
  induction q using Place.induct_rest generalizing power p ts with
  | step q ih =>
    rw [operators_eq h hq, operatorThen]
    by_cases hk : q.peek = some .question
    · rw [if_pos hk]
      by_cases hp : hasAttrPower < power
      · rw [if_pos hp]
        exact ⟨ts, q, rfl, ho, stops_of_question hk hp⟩
      · have hc := consistent (reads_dotPath h) hq
        have hlt : (seq [token, attrPath inner] q).2.rest.length < q.rest.length :=
          takesAt_dotPath h hk
        rw [if_neg hp]
        simp only [andThen, wrap]
        generalize hs : seq [token, attrPath inner] q = a at hc hlt
        obtain ⟨us, s⟩ := a
        exact ih s hlt hc (.hasAttr ho hk (Nat.le_of_not_lt hp) hs)
    · rw [if_neg hk]
      cases hb : q.peek.bind Kind.bindingPower with
      | none =>
        refine ⟨ts, q, rfl, ho, ?_⟩
        intro l hl
        simp [bind_leftPower hk, hb] at hl
      | some powers =>
        obtain ⟨l, r⟩ := powers
        by_cases hp : l < power
        · simp only [if_pos hp]
          refine ⟨ts, q, rfl, ho, ?_⟩
          intro l' hl
          simp only [bind_leftPower hk, hb, Option.map_some, Option.some.injEq] at hl
          omega
        · obtain ⟨k, hk, hb⟩ := Option.bind_eq_some_iff.mp hb
          obtain ⟨us, s, he, hright, hstop, hlt, hc⟩ := operation_right h hs r hq hk
            fun u hu hc _ _ hop => ih u hu hc hop
          simp only [if_neg hp, andThen, wrap, he]
          apply ih s hlt hc
          rw [← List.append_assoc, ← List.append_assoc]
          exact .binaryOp ho hk hb (Nat.le_of_not_lt hp) hright hstop

/-- What `operand` builds behind the blanks ahead is an operation, and no operator that it should
have taken is left. -/
theorem operation_operand (hs : ∀ phrase, Starts (inner phrase)) {power : Nat} {p : Place}
    (hp : p.Consistent) :
    ∃ ts q, operand inner power p = ((trivia p).1 ++ ts, q) ∧
      Operation inner power p.skipTrivia ts q ∧ Stops power q := by
  obtain ⟨ts, q, he, hl⟩ := operation_leftmost h hs power hp
  have hc := consistent (reads_leftmost h) hp.skipTrivia
  rw [he] at hc
  obtain ⟨us, s, ho, hfinal⟩ := operation_operators h hs hc hl
  refine ⟨us, s, ?_, hfinal⟩
  simp only [operators] at ho
  simp only [operand, seq_cons_apply, seq_nil_apply, trivia_eq p, andThen, he, ho, List.append_nil]

end

end Grammar

end NixScope.Syntax
