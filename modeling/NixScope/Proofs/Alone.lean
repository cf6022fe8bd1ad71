import NixScope.Proofs.Locality

namespace NixScope.Syntax

open Place

/-- Expressions that begin with a keyword of their own. -/
def Kind.isStatement (k : Kind) : Bool := k matches letIn | withIn | assert | ifElse

theorem Place.Cut.skipTrivia_eq {after : List Token} {p p' : Place} (h : p.Cut after p')
    (hp : p.skipTrivia = p) : p'.skipTrivia = p' := by
  have ht := p.takeWhile_rest_skipTrivia
  rw [hp, h.rest] at ht
  have ht' : p'.rest.takeWhile Token.isTrivia = [] := by
    cases hr : p'.rest with
    | nil => rfl
    | cons t ts =>
      rw [hr] at ht
      cases hb : t.isTrivia <;> simp_all
  have hd := List.takeWhile_append_dropWhile (p := Token.isTrivia) (l := p'.rest)
  rw [ht', List.nil_append] at hd
  rw [skipTrivia, ht', hd]
  rfl

theorem Rule.trivia_of_skipTrivia_eq {p : Place} (h : p.skipTrivia = p) : trivia p = ([], p) := by
  have ht := trivia_skipTrivia p
  rwa [h] at ht

namespace Grammar

open Rule

section

variable {l : Nat} {p q : Place} {ts : List Tree}

theorem select_of_atom (hp : p.skipTrivia = p) (hc : p.Consistent)
    (ha : nested l .atom p = (ts, q)) :
    select (nested l) p = selectTail (nested l) (select (nested l)) ts q := by
  rw [Grammar.select_eq (reads_nested l) hc]
  simp only [seq_cons_apply, seq_nil_apply, trivia_of_skipTrivia_eq hp, andThen, ha,
    List.nil_append, List.append_nil]

theorem select_of_path {s : Place} {us : List Tree} (hp : p.skipTrivia = p) (hc : p.Consistent)
    (ha : nested l .atom p = (ts, q)) (hd : dotAttrAhead q = true)
    (hs : seq [token, attrPath (nested l)] q = (us, s)) :
    select (nested l) p =
      wrap .select (ts ++ us) («when» .orKw (seq [token, select (nested l)])) s := by
  have hseq := seq_append_apply [token, attrPath (nested l)]
    [«when» .orKw (seq [token, select (nested l)])] q
  simp only [List.cons_append, List.nil_append, hs, seq_cons_apply («when» _ _), seq_nil_apply,
    List.append_nil] at hseq
  rw [select_of_atom hp hc ha, selectTail, if_neg (not_not_intro (peek_of_dotAttrAhead hd)),
    if_pos hd, wrap, hseq, wrap, List.append_assoc]

/-- Behind a place without blanks, a selection is all that `select` takes. -/
theorem Selection.select_eq (hs : Selection (nested l) p ts q) (hp : p.skipTrivia = p)
    (hq : q.errors = []) : select (nested l) p = (ts, q) := by
  have h := reads_nested l
  have hc := consistent_of_clean ((hs.leads h).clean hq)
  induction hs with
  | atom ha hd => rw [select_of_atom hp hc ha, selectTail, if_pos hd]
  | path ha hd hs ho =>
    rw [select_of_path hp hc ha hd hs, wrap, when_neg ho, List.append_nil]
  | @fallback p q s u ts us vs ha hd hs ho hf ih =>
    have hcs : (token s).2.Consistent := consistent_of_clean
      (Leads.clean (.trans (leads_skipTrivia _) (hf.leads h)) hq)
    have hsel : select (nested l) (token s).2 = ((trivia (token s).2).1 ++ vs, u) := by
      rw [select_skip h hcs, seq_cons_apply, seq_cons_apply, seq_nil_apply, trivia_eq,
        ih (skipTrivia_skipTrivia _) hq hcs.skipTrivia, List.append_nil]
    rw [select_of_path hp hc ha hd hs, wrap, when_pos ho]
    simp only [seq_cons_apply token, seq_cons_apply (select _), seq_nil_apply, hsel,
      List.append_nil, List.append_assoc]
  | @broken p q s ts us ha hs hd => exact absurd (by rwa [hs]) (brokenDot_not_clean q)

end

section

variable {l l' : Nat} (hle : l ≤ l') {after : List Token} {p p' q : Place} {ts : List Tree}

include hle

/-- The arguments that a function has been applied to so far are taken in a text that ends behind
them as well. -/
theorem Application.cut (ha : Application (nested l) p ts q) (hp : p.skipTrivia = p)
    (hq : q.errors = []) (hl : after.length ≤ q.rest.length) (hc : p.Cut after p') :
    ∃ q', q.Cut after q' ∧ application (nested l') p' = arguments (nested l') ts q' := by
  have h := reads_nested l
  have hloc := local_select (local_nested after hle)
  induction ha with
  | selection hs =>
    have hsel := hs.select_eq hp hq
    obtain ⟨ht, hc'⟩ := hloc.localAt p p' hc (by rwa [hsel]) (by rwa [hsel])
    rw [hsel] at ht hc'
    refine ⟨_, hc', ?_⟩
    simp only [application, seq_cons_apply, seq_nil_apply,
      trivia_of_skipTrivia_eq (hc.skipTrivia_eq hp), andThen, ht, List.nil_append, List.append_nil]
    rfl
  | @apply q s ts us hf ha hs ih =>
    have hlead : q.Leads s := (leads_skipTrivia q).trans (hs.leads h)
    have hcq := consistent_of_clean (hlead.clean hq)
    obtain ⟨q', hc', he⟩ := ih (hlead.clean hq) (Nat.le_trans hl hlead.rest_suffix.length_le)
    have hsel : select (nested l) q = ((trivia q).1 ++ us, s) := by
      rw [select_skip h hcq, seq_cons_apply, seq_cons_apply, seq_nil_apply, trivia_eq,
        hs.select_eq (skipTrivia_skipTrivia _) hq, List.append_nil]
    obtain ⟨ht, hc''⟩ := hloc.localAt q q' hc' (by rwa [hsel]) (by rwa [hsel])
    obtain ⟨k, hk, hk'⟩ := (Option.any_eq_true _ _).mp ha
    have hpeek : q'.peek = q.peek := peek_eq_of_eatsAt (reads_select h) hc' (by rwa [hsel])
      (eatsAt_select hk (Kind.stays_of_startsArgument hk') (by rwa [hsel]))
    rw [hsel] at ht hc''
    refine ⟨_, hc'', ?_⟩
    rw [he, arguments_eq (reads_nested l') (starts_nested l') hc'.consistent, argumentThen,
      if_pos (by rwa [hpeek]), andThen, wrap, ht, List.append_assoc]

theorem Operation.cut {power : Nat} (ho : Operation (nested l) power p ts q)
    (hp : p.skipTrivia = p) (hq : q.errors = []) (hl : after.length ≤ q.rest.length)
    (hc : p.Cut after p') : ∃ q', q.Cut after q' ∧
      (leftmost (nested l')).andThen (operators (nested l') power) p' =
        operators (nested l') power ts q' := by
  have h := reads_nested l
  have h' := reads_nested l'
  have hloc := local_nested after hle
  induction ho generalizing p' with
  | @unary power r p q ts hu hs =>
    have hleft : leftmost (nested l) p = ([.branch .unaryOp ts], q) := by
      simp only [leftmost, hu, node, trivia_of_skipTrivia_eq hp, hs, List.nil_append]
    obtain ⟨ht, hc'⟩ := (local_leftmost hloc).localAt p p' hc (by rwa [hleft]) (by rwa [hleft])
    rw [hleft] at ht hc'
    exact ⟨_, hc', by rw [andThen, ht]⟩
  | @application power p q ts ha hu hn =>
    obtain ⟨q', hc', he⟩ := ha.cut hle hp hq hl hc
    have hn' := not_startsArgument_of_cut hc' (by simpa using hn)
    have hu' : p'.peek.bind Kind.unaryPower = none := by
      obtain hp' | hp' := hc.peek_eq_none_or <;> rw [hp']
      · rfl
      · exact hu
    refine ⟨q', hc', ?_⟩
    rw [arguments_eq h' (starts_nested l') hc'.consistent, argumentThen, if_neg hn'] at he
    simp only [andThen, leftmost, hu', he]
  | @hasAttr power p q s ts us hop hk hpow hs ih =>
    have hlead : q.Leads s := (reads_dotPath h).leads hs
    have hs' : (seq [token, attrPath (nested l)] q).2 = s := by rw [hs]
    obtain ⟨q', hc', he⟩ := ih hp (hlead.clean hq)
      (Nat.le_trans hl hlead.rest_suffix.length_le) hc
    obtain ⟨ht, hc''⟩ := (local_dotPath hloc).localAt q q' hc' (by rwa [hs']) (by rwa [hs'])
    have hpeek : q'.peek = q.peek := peek_eq_of_eatsAt (reads_dotPath h) hc' (by rwa [hs'])
      (eatsAt_seq_first (eatsAt_token hk) (by simp [reads_attrPath h]))
    rw [hs] at ht hc''
    refine ⟨_, hc'', ?_⟩
    rw [he, operators_question h' hc'.consistent (hpeek.trans hk) hpow, andThen, wrap, ht]
  | @binaryOp power lp rp k p q s ts us hop hk hb hpow hr hstop ih ih' =>
    have hright : (token q).2.skipTrivia.Leads s := hr.leads h
    have hlead' : (token q).2.Leads s := (leads_skipTrivia _).trans hright
    have hlead : q.Leads s := (reads_token.leads_apply q).trans hlead'
    obtain ⟨q', hc', he⟩ := ih hp (hlead.clean hq)
      (Nat.le_trans hl hlead.rest_suffix.length_le) hc
    obtain ⟨ht, hct⟩ := local_token.localAt q q' hc' (hlead'.clean hq)
      (Nat.le_trans hl hlead'.rest_suffix.length_le)
    have hpeek : q'.peek = q.peek := peek_eq_of_eatsAt reads_token hc'
      (Nat.le_trans hl hlead'.rest_suffix.length_le) (eatsAt_token hk)
    have htriv := local_trivia.localAt (token q).2 (token q').2 hct
    rw [trivia_eq (token q).2] at htriv
    obtain ⟨hb', hcb⟩ := htriv (hright.clean hq) (Nat.le_trans hl hright.rest_suffix.length_le)
    obtain ⟨s', hcs, hes⟩ := ih' (skipTrivia_skipTrivia _) hq hl hcb
    rw [operators_stop h' hcs.consistent (stops_of_cut hcs hstop)] at hes
    refine ⟨s', hcs, ?_⟩
    rw [he, operators_binary h' hc'.consistent (hpeek.trans hk) hb hpow, andThen, wrap]
    simp only [seq_cons_apply, seq_nil_apply, hes, ht, hb', trivia_eq (token q).2,
      List.append_nil, List.append_assoc]

end

section

variable {l : Nat} {p q : Place} {ts : List Tree}

theorem ahead_of_attrPathValue (hp : p.peek = some .ident)
    (hq : (attrPathValue (nested l) p).2.errors = []) :
    p.ahead 1 = some .dot ∨ p.ahead 1 = some .assign := by
  have h := reads_nested l
  have hname : (token p.skipTrivia).2.peek = p.ahead 1 := by
    rw [peek, ahead_token (by simpa using hp), ahead_skipTrivia]
  have hattr : (attr (nested l) p.skipTrivia).2 = (token p.skipTrivia).2 := by
    simp only [attr, node, trivia_eq, skipTrivia_skipTrivia, peek_skipTrivia, hp]
  simp only [attrPathValue, node, trivia_eq] at hq
  obtain ⟨hclean, hq⟩ := clean_of_seq (reads_seq (by simp [h])) hq
  obtain ⟨hassign, -⟩ := clean_of_seq (reads_seq (by simp [h])) hq
  by_cases hd : p.ahead 1 = some .dot
  · exact .inl hd
  · have hstop : dotAttrAhead (token p.skipTrivia).2 = false := by
      simp [dotAttrAhead, hname, hd]
    have hpath : (attrPath (nested l) p.skipTrivia).2 = (token p.skipTrivia).2 := by
      simp only [attrPath, node, trivia_eq, skipTrivia_skipTrivia] at hclean ⊢
      obtain ⟨hclean, -⟩ := clean_of_seq (reads_seq (by simp [reads_dotAttrs h])) hclean
      rw [hattr] at hclean
      simp only [seq_cons_apply, seq_nil_apply, hattr]
      rw [many_eq (advances_dotAttr h) (consistent_of_clean hclean), elementThen, hstop]
      rfl
    rw [hpath] at hassign
    exact .inr (hname ▸ peek_of_expect_clean hassign)

/-- Where a pattern might be ahead, an attribute set is empty. -/
theorem peek_of_patternAhead (hp : p.peek = some .leftBrace) (ha : patternAhead p = true)
    (hq : (attrSet (nested l) p).2.errors = []) :
    (attrSet (nested l) p).2.peek = some .colon ∨
      (attrSet (nested l) p).2.peek = some .atSign := by
  have h := reads_nested l
  have hb := reads_bindings h .rightBrace
  rw [← peek_skipTrivia] at hp
  have hahead : ∀ n, (token p.skipTrivia).2.ahead n = p.ahead (n + 1) := by
    intro n
    rw [ahead_token hp, ahead_skipTrivia]
  have hskip : seq [«when» .recKw token, expect .leftBrace, many (binding (nested l) .rightBrace),
      expect .rightBrace] p.skipTrivia =
      seq [token, many (binding (nested l) .rightBrace), expect .rightBrace] p.skipTrivia := by
    rw [seq_cons_of_nil (when_neg (by simp [hp]))]
    exact seq_congr (expect_pos hp) rfl
  simp only [attrSet, node, trivia_eq, hskip] at hq ⊢
  rw [seq_cons_apply] at hq ⊢
  generalize token p.skipTrivia = s at hq hahead ⊢
  obtain ⟨hclean, hq⟩ := clean_of_seq (reads_seq (by simp)) hq
  have hc := consistent_of_clean (Leads.clean (hb.moves _) hclean)
  have hmany : many (binding (nested l) .rightBrace) s.2 = elementThen _ _ s.2 :=
    many_eq (advances_binding h .rightBrace) hc
  have hpeek : s.2.peek = p.ahead 1 := hahead 0
  have hahead1 : s.2.ahead 1 = p.ahead 2 := hahead 1
  -- A rule for the token ahead that meets no problem tells what is behind that token.
  have helement : ∀ {r}, binding (nested l) .rightBrace s.2 = some r → (r s.2).2.errors = [] := by
    intro r hr
    rw [hmany, elementThen, hr] at hclean
    exact (clean_of_seq (reads_seq (by simp [hb])) hclean).1
  obtain ha | ⟨ha, hk⟩ | ⟨ha, hk⟩ := patternAhead_iff.mp ha
  · have hr := helement (r := seq [report .noBinding, node .error token])
      (by simp [binding, hpeek, ha, Kind.startsAttr])
    have he : (seq [node .error token]).Reads := reads_seq (by simp [reads_node])
    exact absurd (clean_of_seq he hr).1 (s.2.report_not_clean _)
  · have hstop : many (binding (nested l) .rightBrace) s.2 = ([], s.2) := by
      rw [hmany, elementThen]
      simp [binding, hpeek, ha]
    rw [seq_cons_apply, hstop] at hq ⊢
    obtain ⟨hclose, -⟩ := clean_of_seq (reads_seq (by simp)) hq
    have hclose := peek_of_expect_clean hclose
    have hlast : (seq [expect .rightBrace] s.2).2.peek = p.ahead 2 := by
      rw [seq_cons_apply, expect_pos hclose, seq_nil_apply, peek, ahead_token hclose, hahead1]
    rwa [hlast]
  · have hr := helement (r := attrPathValue (nested l))
      (by simp [binding, hpeek, ha, Kind.startsAttr])
    have hv := ahead_of_attrPathValue (hpeek.trans ha) hr
    rw [hahead1] at hv
    obtain hv | hv := hv <;> simp [hv] at hk

theorem peek_of_lambdaAhead (ha : lambdaAhead p = true) (hq : (nested l .atom p).2.errors = []) :
    (nested l .atom p).2.peek = some .colon ∨ (nested l .atom p).2.peek = some .atSign := by
  cases l with
  | zero => exact absurd hq (giveUp_not_clean p)
  | succ l =>
    change (atom (nested l) p).2.errors = [] at hq
    change (atom (nested l) p).2.peek = _ ∨ (atom (nested l) p).2.peek = _
    obtain ⟨hp, hk⟩ | ⟨hp, hk⟩ := lambdaAhead_iff.mp ha
    · have hlast : (atom (nested l) p).2.peek = p.ahead 1 := by
        rw [AtomChoice.var.eq hp, node, trivia_eq, peek, ahead_token (by simpa using hp),
          ahead_skipTrivia]
      rwa [hlast]
    · rw [(AtomChoice.attrSet (.inl rfl)).eq hp] at hq ⊢
      exact peek_of_patternAhead hp hk hq

theorem Selection.peek_of_lambdaAhead (hs : Selection (nested l) p ts q)
    (ha : lambdaAhead p = true) (hq : q.errors = []) :
    q.peek = some .colon ∨ q.peek = some .atSign := by
  have h := reads_nested l
  have hatom : ∀ {us s}, nested l .atom p = (us, s) → s.errors = [] →
      s.peek = some .colon ∨ s.peek = some .atSign := by
    intro us s he hs
    have hl := Grammar.peek_of_lambdaAhead ha (l := l) (by rwa [he])
    rwa [he] at hl
  cases hs with
  | atom ha hd => exact hatom ha hq
  | path ha hd hs ho =>
    have hk := hatom ha (((reads_dotPath h).leads hs).clean hq)
    simp [peek_of_dotAttrAhead hd] at hk
  | @fallback p q s u ts us vs ha hd hs ho hf =>
    have hlead := ((reads_dotPath h).leads hs).trans
      ((reads_token.leads_apply s).trans ((leads_skipTrivia _).trans (hf.leads h)))
    have hk := hatom ha (hlead.clean hq)
    simp [peek_of_dotAttrAhead hd] at hk
  | broken ha hs hd =>
    have hk := hatom ha ((reads_brokenDot.leads hs).clean hq)
    simp [hd] at hk

theorem Application.peek_of_lambdaAhead (hs : Application (nested l) p ts q)
    (ha : lambdaAhead p = true) (hq : q.errors = []) :
    q.peek = some .colon ∨ q.peek = some .atSign := by
  induction hs with
  | selection hs => exact hs.peek_of_lambdaAhead ha hq
  | apply hf harg hs ih =>
    have hlead := (leads_skipTrivia _).trans (hs.leads (reads_nested l))
    obtain hk | hk := ih (hlead.clean hq) <;> simp [hk, Kind.startsArgument] at harg

theorem Operation.peek_of_lambdaAhead {power : Nat} (hs : Operation (nested l) power p ts q)
    (ha : lambdaAhead p = true) (hq : q.errors = []) :
    q.peek = some .colon ∨ q.peek = some .atSign := by
  have h := reads_nested l
  induction hs with
  | unary hu hs =>
    obtain ⟨hp, -⟩ | ⟨hp, -⟩ := lambdaAhead_iff.mp ha <;> simp [hp, Kind.unaryPower] at hu
  | application hs hu hn => exact hs.peek_of_lambdaAhead ha hq
  | hasAttr hl hk hp hs ih =>
    have hk' := ih ha (((reads_dotPath h).leads hs).clean hq)
    simp [hk] at hk'
  | @binaryOp power lp rp k p q s ts us hl hk hb hp hr hs ih ih' =>
    have hlead := (reads_token.leads_apply q).trans ((leads_skipTrivia _).trans (hr.leads h))
    obtain hk' | hk' := ih ha (hlead.clean hq) <;> rw [hk] at hk' <;> cases hk' <;> cases hb

theorem Selection.atom_of {inner : Phrase → Rule} (h : ∀ phrase, (inner phrase).Reads)
    (hs : Selection inner p ts q) : ∃ us s, inner .atom p = (us, s) ∧ s.Leads q := by
  cases hs with
  | atom ha hd => exact ⟨_, _, ha, .refl _⟩
  | path ha hd hs ho => exact ⟨_, _, ha, (reads_dotPath h).leads hs⟩
  | @fallback _ _ s _ _ _ _ ha hd hs ho hf =>
    exact ⟨_, _, ha, ((reads_dotPath h).leads hs).trans
      ((reads_token.leads_apply s).trans ((leads_skipTrivia _).trans (hf.leads h)))⟩
  | broken ha hs hd => exact ⟨_, _, ha, reads_brokenDot.leads hs⟩

theorem Application.atom_of {inner : Phrase → Rule} (h : ∀ phrase, (inner phrase).Reads)
    (hs : Application inner p ts q) : ∃ us s, inner .atom p = (us, s) ∧ s.Leads q := by
  induction hs with
  | selection hs => exact hs.atom_of h
  | apply hf ha hs ih =>
    obtain ⟨us, s, he, hl⟩ := ih
    exact ⟨us, s, he, hl.trans ((leads_skipTrivia _).trans (hs.leads h))⟩

theorem peek_of_atom (hq : (nested l .atom p).2.errors = []) :
    p.peek.any Kind.startsStatement = true ∨ p.peek.any Kind.startsArgument = true := by
  cases l with
  | zero => exact absurd hq (giveUp_not_clean p)
  | succ l =>
    cases hs : p.peek.any Kind.startsStatement with
    | true => exact .inl rfl
    | false =>
      cases ha : p.peek.any Kind.startsArgument with
      | true => exact .inr rfl
      | false =>
        have he : nested (l + 1) .atom p = recover .noExpression p :=
          (AtomChoice.broken hs ha).eq rfl
        rw [he] at hq
        exact absurd hq (recover_not_clean _ p)

theorem Operation.peek_ne_none {power : Nat} (hs : Operation (nested l) power p ts q)
    (hq : q.errors = []) : p.peek ≠ none := by
  have h := reads_nested l
  induction hs with
  | unary hu hs =>
    intro hp
    simp [hp] at hu
  | @application _ p _ _ hs hu hn =>
    obtain ⟨us, s, he, hl⟩ := hs.atom_of h
    intro hp
    have hpeek := peek_of_atom (l := l) (p := p) (by rw [he]; exact hl.clean hq)
    simp [hp] at hpeek
  | hasAttr hl hk hp hs ih => exact ih (((reads_dotPath h).leads hs).clean hq)
  | @binaryOp power lp rp k p q s ts us hl hk hb hp hr hs ih ih' =>
    have hlead := (reads_token.leads_apply q).trans ((leads_skipTrivia _).trans (hr.leads h))
    exact ih (hlead.clean hq)

theorem peek_of_expr (hq : (nested l .expr p).2.errors = []) : p.peek ≠ none := by
  cases l with
  | zero => exact absurd hq (giveUp_not_clean p)
  | succ l =>
    change (expr (nested l) p).2.errors = [] at hq
    obtain ⟨r, hr, he⟩ := expr_choice (nested l) p
    rw [he] at hq
    cases hr with
    | operand hk hn =>
      have hc := consistent_of_clean
        (Leads.clean ((reads_operand (reads_nested l) 0).moves p) hq)
      obtain ⟨ts, q, ho, hop, -⟩ :
          ∃ ts q, operand (nested l) 0 p = _ ∧ Operation (nested l) 0 p.skipTrivia ts q ∧ _ :=
        operation_operand (reads_nested l) (starts_nested l) hc
      rw [ho] at hq
      simpa using hop.peek_ne_none hq
    | _ => simp_all

theorem Operation.weaken {inner : Phrase → Rule} {power : Nat}
    (h : Operation inner power p ts q) : Operation inner 0 p ts q := by
  induction h with
  | unary hu hs => exact .unary hu hs
  | application hs hu hn => exact .application hs hu hn
  | hasAttr hl hk hp hs ih => exact .hasAttr ih hk (Nat.zero_le _) hs
  | binaryOp hl hk hb hp hr hs ih ih' => exact .binaryOp ih hk hb (Nat.zero_le _) hr hs

end

/-- How a run has come by a tree: it is what a phrase gave, or what was put together on the way
to one. -/
inductive Origin (l : Nat) (p : Place) (t : Tree) (q : Place) : Prop
  | expr (hl : l ≤ maxDepth) (h : nested l .expr p = ([t], q))
  | atom (hl : l < maxDepth) (h : nested l .atom p = ([t], q))
  | application (hl : l < maxDepth) (h : Application (nested l) p [t] q)
  | operation {power : Nat} (hl : l < maxDepth) (h : Operation (nested l) power p [t] q)

section

variable {l : Nat} {p q : Place} {t : Tree}

theorem Origin.reads (ho : Origin l p t q) : p.Reads [t] q := by
  cases ho with
  | expr hl h => exact (reads_nested l .expr).reads h
  | atom hl h => exact (reads_nested l .atom).reads h
  | application hl h => exact Application.reads (reads_nested l) h
  | operation hl h => exact Operation.reads (reads_nested l) h

theorem expr_of_atom (hp : p.skipTrivia = p) (hk : t.kind.isStatement = true)
    (h : nested l .atom p = ([t], q)) (hq : q.errors = []) :
    ∃ m ≤ l, nested m .expr p = ([t], q) := by
  cases l with
  | zero =>
    have hq : (nested 0 .atom p).2.errors = [] := by rwa [h]
    exact absurd hq (giveUp_not_clean p)
  | succ l =>
    obtain ⟨r, hr, he⟩ := atom_choice (nested l) p
    have h : r p = ([t], q) := he.symm.trans h
    have hnode : ∀ {k s}, r = node k s → k.isStatement = true := by
      rintro k s rfl
      rw [node, trivia_of_skipTrivia_eq hp] at h
      obtain ⟨h, -⟩ := Prod.mk.inj h
      obtain rfl := List.singleton_inj.mp h
      exact hk
    generalize p.peek = o at hr
    cases hr with
    | keyword hk => exact ⟨l, by omega, h⟩
    | broken hs ha =>
      have hq : (recover .noExpression p).2.errors = [] := by rwa [h]
      exact absurd hq (recover_not_clean _ p)
    | var => exact absurd (hnode rfl) (by decide)
    | literal hk => exact absurd (hnode rfl) (by decide)
    | string hk => exact absurd (hnode rfl) (by decide)
    | interpolatedPath => exact absurd (hnode rfl) (by decide)
    | paren => exact absurd (hnode rfl) (by decide)
    | list => exact absurd (hnode rfl) (by decide)
    | attrSet hk => exact absurd (hnode rfl) (by decide)

theorem Selection.expr_of {ts : List Tree} (hs : Selection (nested l) p ts q) (he : ts = [t])
    (hk : t.kind.isStatement = true) (hq : q.errors = []) : nested l .atom p = (ts, q) := by
  cases hs with
  | atom ha hd => exact ha
  | path ha hd hs ho =>
    obtain rfl := List.singleton_inj.mp he
    cases hk
  | fallback ha hd hs ho hf =>
    obtain rfl := List.singleton_inj.mp he
    cases hk
  | @broken p q s ts us ha hs hd => exact absurd (by rwa [hs]) (brokenDot_not_clean q)

theorem Application.expr_of {ts : List Tree} (hs : Application (nested l) p ts q) (he : ts = [t])
    (hk : t.kind.isStatement = true) (hq : q.errors = []) : nested l .atom p = (ts, q) := by
  cases hs with
  | selection hs => exact hs.expr_of he hk hq
  | apply hf ha hs =>
    obtain rfl := List.singleton_inj.mp he
    cases hk

theorem Operation.expr_of {power : Nat} {ts : List Tree} (hs : Operation (nested l) power p ts q)
    (he : ts = [t]) (hk : t.kind.isStatement = true) (hq : q.errors = []) :
    nested l .atom p = (ts, q) := by
  cases hs with
  | application hs hu hn => exact hs.expr_of he hk hq
  | unary hu hs =>
    obtain rfl := List.singleton_inj.mp he
    cases hk
  | hasAttr hl ho hp hs =>
    obtain rfl := List.singleton_inj.mp he
    cases hk
  | binaryOp hl ho hb hp hr hs =>
    obtain rfl := List.singleton_inj.mp he
    cases hk

theorem Origin.expr_of (ho : Origin l p t q) (hp : p.skipTrivia = p)
    (hk : t.kind.isStatement = true) (hq : q.errors = []) :
    ∃ m ≤ maxDepth, nested m .expr p = ([t], q) := by
  have hatom : l < maxDepth → nested l .atom p = ([t], q) →
      ∃ m ≤ maxDepth, nested m .expr p = ([t], q) := by
    intro hl h
    obtain ⟨m, hm, he⟩ := expr_of_atom hp hk h hq
    exact ⟨m, by omega, he⟩
  cases ho with
  | expr hl h => exact ⟨l, hl, h⟩
  | atom hl h => exact hatom hl h
  | application hl h => exact hatom hl (h.expr_of rfl hk hq)
  | operation hl h => exact hatom hl (h.expr_of rfl hk hq)

/-- What may be read on to a whole expression: an operand at the end of a text. -/
theorem expr_of_operand {m : Nat} (hp : p.skipTrivia = p) (hc : p.Consistent)
    (hs : p.peek.any Kind.startsStatement = false) (hq : q.errors = []) (hn : q.peek = none)
    (h : (leftmost (nested m)).andThen (operators (nested m) 0) p = ([t], q)) :
    nested (m + 1) .expr p = ([t], q) := by
  have ho : operand (nested m) 0 p = ([t], q) := by
    change seq [trivia, (leftmost (nested m)).andThen (operators (nested m) 0)] p = _
    simp only [seq_cons_apply, seq_nil_apply, trivia_of_skipTrivia_eq hp, h, List.nil_append,
      List.append_nil]
  have hl : lambdaAhead p = false := by
    obtain ⟨ts, s, he, hop, -⟩ :
        ∃ ts s, operand (nested m) 0 p = _ ∧ Operation (nested m) 0 p.skipTrivia ts s ∧ _ :=
      operation_operand (reads_nested m) (starts_nested m) hc
    obtain ⟨-, rfl⟩ := Prod.mk.inj (ho.symm.trans he)
    rw [hp] at hop
    rw [← Bool.not_eq_true]
    intro ha
    have hk := hop.peek_of_lambdaAhead ha hq
    simp [hn] at hk
  exact (ExprChoice.operand hs hl).eq.trans ho

theorem operand_of_application {m : Nat} (hc : q.Consistent) (hn : q.peek = none)
    (hu : p.peek.bind Kind.unaryPower = none)
    (h : application (nested m) p = arguments (nested m) [t] q) :
    (leftmost (nested m)).andThen (operators (nested m) 0) p = ([t], q) := by
  rw [arguments_eq (reads_nested m) (starts_nested m) hc, argumentThen, hn, if_neg (by simp)] at h
  simp only [andThen, leftmost, hu, h]
  exact operators_stop (reads_nested m) hc fun l hl => by simp [hn] at hl

omit t in
theorem unaryPower_of_atom (hq : (nested l .atom p).2.errors = []) :
    p.peek.bind Kind.unaryPower = none := by
  obtain hk | hk := peek_of_atom hq <;> obtain ⟨k, hp, hk⟩ := (Option.any_eq_true _ _).mp hk <;>
    rw [hp] <;> cases k <;> first | rfl | cases hk

theorem peek_of_cut_rest {q' : Place} (h : q.Cut q.rest q') : q'.peek = none :=
  peek_nil (by simpa using h.rest)

/-- What has been put together on the way to a phrase is an operand where the text ends behind
it. -/
theorem Origin.operand {p' : Place} (ho : Origin l p t q) (hp : p.skipTrivia = p)
    (hq : q.errors = []) (hc : p.Cut q.rest p') :
    (∃ m ≤ maxDepth, nested m .expr p = ([t], q)) ∨ ∃ q', q.Cut q.rest q' ∧
      (leftmost (nested 511)).andThen (operators (nested 511) 0) p' = ([t], q') := by
  have h := reads_nested 511
  cases ho with
  | expr hl he => exact .inl ⟨l, hl, he⟩
  | atom hl he =>
    right
    have hle : l ≤ 511 := Nat.le_of_lt_succ hl
    obtain ⟨ht, hc'⟩ := (local_nested q.rest hle .atom).localAt p p' hc (by rwa [he])
      (Nat.le_of_eq (by rw [he]))
    rw [he] at ht hc'
    have hn := peek_of_cut_rest hc'
    have ha : Application (nested 511) p' [t] (nested 511 .atom p').2 :=
      .selection (.atom (Prod.ext ht rfl) (by simp [hn]))
    -- The whole of the shorter text is the atom, which need not be cut again.
    have hself : p'.Cut [] p' := ⟨(List.append_nil _).symm, hc.clean⟩
    obtain ⟨q', hc'', he'⟩ := ha.cut (Nat.le_refl _) (hc.skipTrivia_eq hp) hc'.clean
      (Nat.zero_le _) hself
    have hrest : q'.rest = [] := by
      have hr := hc'.rest
      rw [List.self_eq_append_left] at hr
      simpa [hr] using hc''.rest.symm
    refine ⟨q', ⟨by simp [hrest], hc''.clean⟩, ?_⟩
    exact operand_of_application hc''.consistent (peek_nil hrest) (unaryPower_of_atom hc'.clean) he'
  | application hl ha =>
    right
    have hle : l ≤ 511 := Nat.le_of_lt_succ hl
    obtain ⟨q', hc', he⟩ := ha.cut hle hp hq (Nat.le_refl _) hc
    obtain ⟨us, s, he', hl'⟩ := ha.atom_of (reads_nested l)
    have hu : p.peek.bind Kind.unaryPower = none :=
      unaryPower_of_atom (l := l) (by rw [he']; exact hl'.clean hq)
    have hu' : p'.peek.bind Kind.unaryPower = none := by
      obtain hp' | hp' := hc.peek_eq_none_or <;> rw [hp']
      · rfl
      · exact hu
    exact ⟨q', hc', operand_of_application hc'.consistent (peek_of_cut_rest hc') hu' he⟩
  | operation hl ho =>
    right
    obtain ⟨q', hc', he⟩ := ho.weaken.cut (Nat.le_of_lt_succ hl) hp hq (Nat.le_refl _) hc
    have hn := peek_of_cut_rest hc'
    rw [operators_stop h hc'.consistent fun l hl => by simp [hn] at hl] at he
    exact ⟨q', hc', he⟩

/-- The tokens of the tree are what is ahead where it begins, less what is behind it. -/
theorem Origin.cut (ho : Origin l p t q) : p.Cut q.rest (start t.leaves) :=
  ⟨by simpa [Rose.leavesOf, start] using ho.reads.leaves.symm, rfl⟩

theorem Origin.peek_start (ho : Origin l p t q) (hp : p.skipTrivia = p) :
    (start t.leaves).peek = t.leaves.head?.map Token.kind := by
  rw [peek_eq_head, ho.cut.skipTrivia_eq hp]
  rfl

/-- A tree that a run has come by is read again from its own tokens, as long as no keyword at its
front begins another expression. -/
theorem Origin.alone (ho : Origin l p t q) (hp : p.skipTrivia = p) (hq : q.errors = [])
    (hk : t.kind.isStatement = true ∨
      (t.leaves.head?.map Token.kind).any Kind.startsStatement = false) :
    ∃ q', q.Cut q.rest q' ∧ nested maxDepth .expr (start t.leaves) = ([t], q') := by
  have hc := ho.cut
  have hexpr : (∃ m ≤ maxDepth, nested m .expr p = ([t], q)) →
      ∃ q', q.Cut q.rest q' ∧ nested maxDepth .expr (start t.leaves) = ([t], q') := by
    rintro ⟨m, hm, he⟩
    obtain ⟨ht, hc'⟩ := (local_nested q.rest hm .expr).localAt p _ hc (by rwa [he])
      (Nat.le_of_eq (by rw [he]))
    rw [he] at ht hc'
    exact ⟨_, hc', Prod.ext ht rfl⟩
  obtain hk | hk := hk
  · exact hexpr (ho.expr_of hp hk hq)
  obtain he | ⟨q', hc', he⟩ := ho.operand hp hq hc
  · exact hexpr he
  rw [← ho.peek_start hp] at hk
  exact ⟨q', hc', expr_of_operand (hc.skipTrivia_eq hp) hc.consistent hk hc'.clean (peek_of_cut_rest hc') he⟩

end

end Grammar

theorem Parse.ofTokens_of_expr {t : Tree} {q : Place} (hr : q.rest = []) (hq : q.errors = [])
    (h : Grammar.nested Grammar.maxDepth .expr (start t.leaves) = ([t], q)) :
    ofTokens t.leaves = ⟨[t], []⟩ := by
  have hpeek : (start t.leaves).peek.isSome = true := by
    rw [Option.isSome_iff_ne_none]
    exact Grammar.peek_of_expr (l := Grammar.maxDepth) (by rw [h]; exact hq)
  have hn : q.peek.isSome = false := by
    rw [peek_nil hr]
    rfl
  have htriv : Rule.trivia q = ([], q) := by
    obtain ⟨rest, offset, errors⟩ := q
    cases hr
    rfl
  simp only [ofTokens, Grammar.file, Rule.seq_cons_apply, Rule.seq_nil_apply, Rule.onlyIf, hpeek,
    if_true, h, hn, Bool.false_eq_true, if_false, htriv, hq, List.append_nil, List.reverse_nil]

end NixScope.Syntax
