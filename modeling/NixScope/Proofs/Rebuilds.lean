import NixScope.Proofs.Alone
import NixScope.Proofs.Lexemes

namespace NixScope.Syntax

open Place

namespace Place

theorem aheadIn_cons {t : Token} (h : t.isTrivia = false) (ts : List Token) :
    aheadIn (t :: ts) 0 = some t.kind := by
  simp [aheadIn, h]

theorem aheadIn_cons_succ {t : Token} (h : t.isTrivia = false) (ts : List Token) (n : Nat) :
    aheadIn (t :: ts) (n + 1) = aheadIn ts n := by
  simp [aheadIn, h]

end Place

namespace Token

def Blank (ws : List Token) : Prop := ∀ t ∈ ws, t.isTrivia = true

variable {ws : List Token}

theorem blank_nil : Blank [] := by simp [Blank]

theorem Blank.aheadIn_append (h : Blank ws) (ts : List Token) (n : Nat) :
    aheadIn (ws ++ ts) n = aheadIn ts n := by
  induction ws with
  | nil => rfl
  | cons t ws ih =>
    obtain ⟨ht, hw⟩ := List.forall_mem_cons.mp h
    simp only [List.cons_append, aheadIn, ht, if_true, ih hw]

theorem Blank.trivia_eq (h : Blank ws) {t : Token} (ht : t.isTrivia = false) (ts : List Token)
    (offset : Nat) (errors : List Error) :
    ∃ offset', Rule.trivia ⟨ws ++ t :: ts, offset, errors⟩ =
      (ws.map .leaf, ⟨t :: ts, offset', errors⟩) := by
  have htake : (ws ++ t :: ts).takeWhile isTrivia = ws := by
    rw [List.takeWhile_append_of_pos h]
    simp [ht]
  have hdrop : (ws ++ t :: ts).dropWhile isTrivia = t :: ts := by
    rw [List.dropWhile_append_of_pos h]
    simp [ht]
  exact ⟨_, by rw [Rule.trivia_eq, skipTrivia, htake, hdrop]⟩

end Token

namespace Tree

@[simp] theorem leavesOf_map_leaf (ws : List Token) :
    Rose.leavesOf (ws.map (.leaf : Token → Tree)) = ws := by
  induction ws with
  | nil => rfl
  | cons t ws ih => rw [List.map_cons, Rose.leavesOf, ih, Rose.leaves, List.singleton_append]

def opening (ts : List Tree) : Option Kind := (Rose.leavesOf ts).head?.map Token.kind

theorem exists_of_opening {ts : List Tree} {k : Kind} (h : opening ts = some k) :
    ∃ t us, Rose.leavesOf ts = t :: us ∧ t.kind = k := by
  obtain ⟨t, ht, hk⟩ := Option.map_eq_some_iff.mp h
  obtain ⟨us, hu⟩ := List.head?_eq_some_iff.mp ht
  exact ⟨t, us, hu, hk⟩

theorem opening_cons {t : Tree} {k : Kind} (h : opening [t] = some k) (ts : List Tree) :
    opening (t :: ts) = some k := by
  obtain ⟨o, us, hu, rfl⟩ := exists_of_opening h
  rw [Rose.leavesOf, Rose.leavesOf, List.append_nil] at hu
  simp [opening, Rose.leavesOf, hu]

theorem opening_branch (k : Kind) (ts : List Tree) : opening [.branch k ts] = opening ts := by
  rw [opening, Rose.leavesOf, Rose.leavesOf, List.append_nil, Rose.leaves, opening]

theorem aheadIn_of_opening {ts : List Tree} {k : Kind} (h : opening ts = some k)
    (hk : k.isTrivia = false) (rest : List Token) :
    aheadIn (Rose.leavesOf ts ++ rest) 0 = some k := by
  obtain ⟨t, us, hu, rfl⟩ := exists_of_opening h
  rw [hu, List.cons_append, aheadIn_cons hk]

end Tree

namespace Rule

/-- Where the tokens are ahead, followed by tokens that are admitted, the rule takes them, meets no
problem and builds the trees. -/
def Makes (r : Rule) (tokens : List Token) (ts : List Tree) (admitted : List Token → Prop) : Prop :=
  ∀ rest offset, admitted rest → ∃ offset',
    r ⟨tokens ++ rest, offset, []⟩ = (ts, ⟨rest, offset', []⟩)

/-- The rule builds the trees out of their own tokens. -/
def Rebuilds (r : Rule) (ts : List Tree) (admitted : List Token → Prop) : Prop :=
  r.Makes (Rose.leavesOf ts) ts admitted

variable {r s : Rule} {rs : List Rule} {ts us : List Tree} {tokens tokens' : List Token}
  {ok ok' : List Token → Prop} {ws : List Token} {k : Kind} {t : Token}

theorem Makes.mono (h : r.Makes tokens ts ok) (hok : ∀ rest, ok' rest → ok rest) :
    r.Makes tokens ts ok' :=
  fun rest offset hr => h rest offset (hok rest hr)

theorem Makes.congr (h : r.Makes tokens ts ok)
    (he : ∀ rest offset, ok rest → s ⟨tokens ++ rest, offset, []⟩ = r ⟨tokens ++ rest, offset, []⟩) :
    s.Makes tokens ts ok := by
  intro rest offset hr
  obtain ⟨o, h⟩ := h rest offset hr
  exact ⟨o, (he rest offset hr).trans h⟩

theorem Makes.andThen {f : List Tree → Rule} (h : r.Makes tokens ts ok)
    (h' : (f ts).Makes tokens' us ok') (hok : ∀ rest, ok' rest → ok (tokens' ++ rest)) :
    (r.andThen f).Makes (tokens ++ tokens') us ok' := by
  intro rest offset hr
  obtain ⟨o, h⟩ := h _ offset (hok rest hr)
  obtain ⟨o', h'⟩ := h' rest o hr
  exact ⟨o', by rw [List.append_assoc, Rule.andThen, h, h']⟩

theorem Rebuilds.wrap (h : r.Rebuilds us ok) (kind : Kind) (left : List Tree) :
    (Rule.wrap kind left r).Makes (Rose.leavesOf us) [.branch kind (left ++ us)] ok := by
  intro rest offset hr
  obtain ⟨o, h⟩ := h rest offset hr
  exact ⟨o, by rw [Rule.wrap, h]⟩

theorem rebuilds_nil (ok : List Token → Prop) : (seq []).Rebuilds [] ok :=
  fun _ offset _ => ⟨offset, rfl⟩

theorem Rebuilds.cons (h : r.Rebuilds ts ok) (h' : (seq rs).Rebuilds us ok')
    (hok : ∀ rest, ok' rest → ok (Rose.leavesOf us ++ rest)) :
    (seq (r :: rs)).Rebuilds (ts ++ us) ok' := by
  intro rest offset hr
  obtain ⟨o, h⟩ := h _ offset (hok rest hr)
  obtain ⟨o', h'⟩ := h' rest o hr
  exact ⟨o', by rw [Rose.leavesOf_append, List.append_assoc, seq_cons_apply, h, h']⟩

theorem Rebuilds.single (h : r.Rebuilds ts ok) : (seq [r]).Rebuilds ts ok := by
  have hs := h.cons (rebuilds_nil ok) fun _ hr => hr
  rwa [List.append_nil] at hs

theorem Rebuilds.cons_any (h : r.Rebuilds ts fun _ => True) (h' : (seq rs).Rebuilds us ok') :
    (seq (r :: rs)).Rebuilds (ts ++ us) ok' :=
  h.cons h' fun _ _ => trivial

theorem Rebuilds.trivia (h : r.Rebuilds us ok) (hw : Token.Blank ws)
    (ho : Tree.opening us = some k) (hk : k.isTrivia = false) :
    (seq [Rule.trivia, r]).Rebuilds (ws.map .leaf ++ us) ok := by
  intro rest offset hr
  obtain ⟨t, vs, hv, rfl⟩ := Tree.exists_of_opening ho
  obtain ⟨o, he⟩ := hw.trivia_eq hk (vs ++ rest) offset []
  obtain ⟨o', h⟩ := h.single rest o hr
  rw [hv, List.cons_append] at h
  refine ⟨o', ?_⟩
  rw [Rose.leavesOf_append, Tree.leavesOf_map_leaf, List.append_assoc, hv, List.cons_append,
    seq_cons_apply, he, h]

theorem rebuilds_leaf (t : Token) : leaf.Rebuilds [.leaf t] fun _ => True :=
  fun _ offset _ => ⟨offset + t.width, rfl⟩

theorem rebuilds_token (hw : Token.Blank ws) (ht : t.isTrivia = false) :
    token.Rebuilds (ws.map .leaf ++ [.leaf t]) fun _ => True :=
  (rebuilds_leaf t).trivia hw rfl ht

theorem Rebuilds.node (h : r.Rebuilds us ok) (hw : Token.Blank ws) (ho : Tree.opening us = some k)
    (hk : k.isTrivia = false) (kind : Kind) :
    (Rule.node kind r).Rebuilds (ws.map .leaf ++ [.branch kind us]) ok := by
  intro rest offset hr
  obtain ⟨t, vs, hv, rfl⟩ := Tree.exists_of_opening ho
  obtain ⟨o, he⟩ := hw.trivia_eq hk (vs ++ rest) offset []
  obtain ⟨o', h⟩ := h rest o hr
  rw [hv, List.cons_append] at h
  refine ⟨o', ?_⟩
  rw [Rose.leavesOf_append, Tree.leavesOf_map_leaf, List.append_assoc]
  simp only [Rose.leavesOf, Rose.leaves, List.append_nil, hv, List.cons_append]
  rw [Rule.node, he]
  dsimp only
  rw [h]

theorem rebuilds_expect (hw : Token.Blank ws) (ht : t.isTrivia = false) :
    (expect t.kind).Rebuilds (ws.map .leaf ++ [.leaf t]) fun _ => True := by
  refine (rebuilds_token hw ht).congr fun rest offset _ => expect_pos ?_
  rw [peek, ahead, Rose.leavesOf_append, Tree.leavesOf_map_leaf, List.append_assoc,
    hw.aheadIn_append]
  exact aheadIn_cons ht rest

theorem rebuilds_when_neg (kind : Kind) (r : Rule) :
    («when» kind r).Rebuilds [] fun rest => aheadIn rest 0 ≠ some kind :=
  fun _ offset hr => ⟨offset, when_neg hr⟩

theorem Rebuilds.when (h : r.Rebuilds ts ok)
    (hp : ∀ rest, ok rest → aheadIn (Rose.leavesOf ts ++ rest) 0 = some k) :
    («when» k r).Rebuilds ts ok :=
  h.congr fun rest _ hr => when_pos (hp rest hr)

theorem rebuilds_many_nil {element : Place → Option Rule} (ha : Advances element)
    (h : ∀ p : Place, ok p.rest → element p = none) : (many element).Rebuilds [] ok := by
  intro rest offset hr
  refine ⟨offset, ?_⟩
  rw [Rose.leavesOf, List.nil_append, many_eq ha (consistent_of_clean rfl), elementThen, h _ hr]

theorem Rebuilds.many_cons {element : Place → Option Rule} (ha : Advances element)
    (h : r.Rebuilds ts ok) (he : ∀ p rest, p.rest = Rose.leavesOf ts ++ rest → element p = some r)
    (h' : (many element).Rebuilds us ok') (hok : ∀ rest, ok' rest → ok (Rose.leavesOf us ++ rest)) :
    (many element).Rebuilds (ts ++ us) ok' := by
  refine (h.cons h'.single hok).congr fun rest offset hr => ?_
  rw [many_eq ha (consistent_of_clean rfl), elementThen,
    he _ (Rose.leavesOf us ++ rest) (by rw [Rose.leavesOf_append, List.append_assoc])]

end Rule

def Kind.endsExpr (k : Kind) : Bool :=
  k matches rightParen | rightBracket | rightBrace | semicolon | comma

namespace Grammar

open Rule

/-- An attribute that is spelled by a word, or by a string that interpolates nothing. -/
inductive AttrTree : Tree → Prop
  | word {t : Token} (ht : t.kind = .ident ∨ t.kind = .orKw) : AttrTree (.branch .attr [.leaf t])
  | quoted (cs : List Char) :
      AttrTree (.branch .attr [.branch .string ((Token.quoted cs).map .leaf)])

def dotted (as : List Tree) : List Tree := as.flatMap fun a => [.leaf Token.dot, a]

theorem AttrTree.starts {a : Tree} (h : AttrTree a) :
    ∃ k, Tree.opening [a] = some k ∧ k.startsAttr = true := by
  cases h with
  | @word t ht =>
    refine ⟨t.kind, rfl, ?_⟩
    obtain ht | ht := ht <;> rw [ht] <;> rfl
  | quoted cs => exact ⟨.quote, rfl, rfl⟩

theorem not_isTrivia_of_startsAttr {k : Kind} (h : k.startsAttr = true) : k.isTrivia = false := by
  cases k <;> first | rfl | cases h

def Ended (rest : List Token) : Prop := (aheadIn rest 0).all Kind.endsExpr = true

theorem Ended.ne {rest : List Token} (h : Ended rest) {k : Kind} (hk : k.endsExpr = false) :
    aheadIn rest 0 ≠ some k := by
  intro he
  rw [Ended, he, Option.all_some, hk] at h
  exact absurd h (by simp)

section

variable {l : Nat} {ws : List Token} {ok ok' : List Token → Prop} {a : Tree} {as : List Tree}

theorem rebuilds_contents {quote : Token} (hq : quote.kind = .quote ∨ quote.kind = .indentedQuote)
    {contents : List Token} (hc : ∀ t ∈ contents, t.kind = .stringContent) :
    (many (stringPart (nested l))).Rebuilds (contents.map .leaf) fun rest =>
      aheadIn rest 0 = some quote.kind := by
  have ha := advances_stringPart (reads_nested l)
  induction contents with
  | nil =>
    refine rebuilds_many_nil ha fun p hp => ?_
    simp only [stringPart, peek, ahead, hp]
    obtain hq | hq := hq <;> rw [hq]
  | cons t contents ih =>
    obtain ⟨ht, hc⟩ := List.forall_mem_cons.mp hc
    have htriv : t.isTrivia = false := by
      rw [Token.isTrivia, ht]
      rfl
    rw [List.map_cons, ← List.singleton_append]
    refine Rebuilds.many_cons ha (rebuilds_token Token.blank_nil htriv) (fun p rest hp => ?_)
      (ih hc) fun _ _ => trivial
    have hpeek : p.peek = some .stringContent := by
      rw [peek, ahead, hp, ← ht]
      exact aheadIn_cons htriv rest
    simp only [stringPart, hpeek]

theorem rebuilds_literal (hw : Token.Blank ws) {quote : Token}
    (hq : quote.kind = .quote ∨ quote.kind = .indentedQuote) {contents : List Token}
    (hc : ∀ t ∈ contents, t.kind = .stringContent) :
    (string (nested l) quote.kind).Rebuilds
      (ws.map .leaf ++ [.branch .string ((quote :: (contents ++ [quote])).map .leaf)])
      fun _ => True := by
  have htriv : quote.isTrivia = false := by
    obtain hq | hq := hq <;> rw [Token.isTrivia, hq] <;> rfl
  have hopen := rebuilds_token Token.blank_nil htriv
  have hclose : Rule.Rebuilds
      (fun p => if p.peek = some quote.kind then token p else report .unterminatedString p)
      [.leaf quote] fun _ => True :=
    hopen.congr fun rest _ _ => if_pos (aheadIn_cons htriv rest)
  have hseq := hopen.cons_any ((rebuilds_contents (l := l) hq hc).cons hclose.single
    fun rest _ => aheadIn_cons htriv rest)
  rw [List.map_cons, List.map_append]
  exact hseq.node hw rfl htriv .string

theorem rebuilds_string (hw : Token.Blank ws) (cs : List Char) :
    (string (nested l) .quote).Rebuilds
      (ws.map .leaf ++ [.branch .string ((Token.quoted cs).map .leaf)]) fun _ => True := by
  have hc : ∀ t ∈ if cs = [] then [] else [⟨.stringContent, String.ofList (Quoted.encode cs)⟩],
      Token.kind t = .stringContent := by
    split <;> simp
  have h := @rebuilds_literal l ws hw ⟨.quote, "\""⟩ (.inl rfl) _ hc
  rwa [← List.cons_append] at h

theorem AttrTree.rebuilds (h : AttrTree a) (hw : Token.Blank ws) :
    (attr (nested l)).Rebuilds (ws.map .leaf ++ [a]) fun _ => True := by
  cases h with
  | @word t ht =>
    have hk : t.isTrivia = false := by
      obtain ht | ht := ht <;> rw [Token.isTrivia, ht] <;> rfl
    have hr := rebuilds_token Token.blank_nil hk
    refine Rebuilds.node (k := t.kind) ?_ hw rfl hk .attr
    refine hr.congr fun rest offset _ => ?_
    have hp : peek ⟨Rose.leavesOf [(.leaf t : Tree)] ++ rest, offset, []⟩ = some t.kind :=
      aheadIn_cons hk rest
    simp only [List.map_nil, List.nil_append, hp]
    obtain ht | ht := ht <;> rw [ht]
  | quoted cs =>
    refine Rebuilds.node (k := .quote) ?_ hw rfl rfl .attr
    exact (rebuilds_string Token.blank_nil cs).congr fun rest offset _ => rfl

theorem dotAttrAhead_of_rest {p : Place} (h : AttrTree a) (rest : List Token)
    (hp : p.rest = Token.dot :: (Rose.leavesOf [a] ++ rest)) : dotAttrAhead p = true := by
  obtain ⟨k, ho, hk⟩ := h.starts
  have hahead := Tree.aheadIn_of_opening ho (not_isTrivia_of_startsAttr hk) rest
  rw [dotAttrAhead, peek, ahead, ahead, hp, aheadIn_cons rfl, aheadIn_cons_succ rfl, hahead,
    Option.any_some, hk]
  rfl

theorem rebuilds_dotted (h : ∀ a ∈ as, AttrTree a) :
    (many fun p => if dotAttrAhead p then some (seq [token, attr (nested l)]) else none).Rebuilds
      (dotted as) fun rest => aheadIn rest 0 ≠ some .dot := by
  have ha := advances_dotAttr (reads_nested l)
  induction as with
  | nil =>
    refine rebuilds_many_nil ha fun p hp => if_neg ?_
    simp [dotAttrAhead, peek, ahead, hp]
  | cons a as ih =>
    obtain ⟨h, hs⟩ := List.forall_mem_cons.mp h
    have hr := (rebuilds_token Token.blank_nil (t := Token.dot) rfl).cons_any
      (h.rebuilds (l := l) Token.blank_nil).single
    refine Rebuilds.many_cons ha hr (fun p rest hp => if_pos ?_) (ih hs) fun _ _ => trivial
    exact dotAttrAhead_of_rest h rest hp

def pathTree (a : Tree) (as : List Tree) : Tree := .branch .attrPath (a :: dotted as)

theorem rebuilds_attrPath (hw : Token.Blank ws) (h : AttrTree a) (hs : ∀ a ∈ as, AttrTree a) :
    (attrPath (nested l)).Rebuilds (ws.map .leaf ++ [pathTree a as]) fun rest =>
      aheadIn rest 0 ≠ some .dot := by
  obtain ⟨k, ho, hk⟩ := h.starts
  have hr := (h.rebuilds (l := l) Token.blank_nil).cons_any
    (rebuilds_dotted (l := l) hs).single
  exact hr.node hw (Tree.opening_cons ho _) (not_isTrivia_of_startsAttr hk) .attrPath

theorem rebuilds_select {ts vs : List Tree} {k : Kind} {tokens : List Token}
    (hw : Token.Blank ws) (ho : Tree.opening vs = some k) (hk : k.isTrivia = false)
    (hatom : (nested l .atom).Rebuilds ts ok)
    (htail : (selectTail (nested l) (select (nested l)) ts).Makes tokens vs ok')
    (ht : Rose.leavesOf vs = Rose.leavesOf ts ++ tokens)
    (hok : ∀ rest, ok' rest → ok (tokens ++ rest)) :
    (select (nested l)).Rebuilds (ws.map .leaf ++ vs) ok' := by
  have ha := hatom.andThen (f := selectTail (nested l) (select (nested l))) htail hok
  rw [← ht] at ha
  refine (Rebuilds.trivia ha hw ho hk).congr fun rest offset _ => ?_
  exact Grammar.select_eq (reads_nested l) (consistent_of_clean rfl)

theorem rebuilds_select_atom {k : Kind} (hw : Token.Blank ws) (ho : Tree.opening [a] = some k)
    (hk : k.isTrivia = false) (hatom : (nested l .atom).Rebuilds [a] fun _ => True) :
    (select (nested l)).Rebuilds (ws.map .leaf ++ [a]) fun rest =>
      aheadIn rest 0 ≠ some .dot := by
  have htail : (selectTail (nested l) (select (nested l)) [a]).Makes [] [a] fun rest =>
      aheadIn rest 0 ≠ some .dot := fun _ offset hr => ⟨offset, if_pos hr⟩
  exact rebuilds_select hw ho hk hatom htail (List.append_nil _).symm fun _ _ => trivial

theorem rebuilds_select_path {k : Kind} {b : Tree} {tail : List Tree} (hw : Token.Blank ws)
    (ho : Tree.opening [b] = some k) (hk : k.isTrivia = false)
    (hatom : (nested l .atom).Rebuilds [b] fun _ => True) (h : AttrTree a)
    (hs : ∀ a ∈ as, AttrTree a)
    (htail : («when» .orKw (seq [token, select (nested l)])).Rebuilds tail ok)
    (hok : ∀ rest, ok rest → aheadIn (Rose.leavesOf tail ++ rest) 0 ≠ some .dot) :
    (select (nested l)).Rebuilds (ws.map .leaf ++
      [.branch .select (b :: .leaf Token.dot :: pathTree a as :: tail)]) ok := by
  have hpath := (rebuilds_attrPath (l := l) Token.blank_nil h hs).cons htail.single hok
  have hseq := (rebuilds_token Token.blank_nil (t := Token.dot) rfl).cons_any hpath
  refine rebuilds_select hw (k := k) ?_ hk hatom ((hseq.wrap .select [b]).congr ?_) ?_
    fun _ _ => trivial
  · exact (Tree.opening_branch _ _).trans (Tree.opening_cons ho _)
  · intro rest offset hr
    have hd : dotAttrAhead ⟨Rose.leavesOf ([.leaf Token.dot] ++ ([pathTree a as] ++ tail)) ++ rest,
        offset, []⟩ = true := by
      apply dotAttrAhead_of_rest h (Rose.leavesOf (dotted as) ++ (Rose.leavesOf tail ++ rest))
      simp [Rose.leavesOf, Rose.leaves, pathTree]
    exact (if_neg (not_not_intro (peek_of_dotAttrAhead hd))).trans (if_pos hd)
  · simp [Rose.leavesOf, Rose.leaves]

theorem makes_arguments_nil (function : List Tree) :
    (arguments (nested l) function).Makes [] function fun rest =>
      (aheadIn rest 0).any Kind.startsArgument = false := by
  intro rest offset hr
  refine ⟨offset, ?_⟩
  rw [arguments_eq (reads_nested l) (starts_nested l) (consistent_of_clean rfl), argumentThen]
  exact if_neg (Bool.eq_false_iff.mp hr)

theorem makes_arguments_cons (function : List Tree) {argument vs : List Tree} {k : Kind}
    {tokens : List Token} (ho : ∀ rest, aheadIn (Rose.leavesOf argument ++ rest) 0 = some k)
    (hk : k.startsArgument = true) (harg : (select (nested l)).Rebuilds argument ok)
    (hmore : (arguments (nested l) [.branch .apply (function ++ argument)]).Makes tokens vs ok')
    (hok : ∀ rest, ok' rest → ok (tokens ++ rest)) :
    (arguments (nested l) function).Makes (Rose.leavesOf argument ++ tokens) vs ok' := by
  refine ((harg.wrap .apply function).andThen hmore hok).congr fun rest offset _ => ?_
  rw [arguments_eq (reads_nested l) (starts_nested l) (consistent_of_clean rfl), argumentThen,
    List.append_assoc]
  exact if_pos (by rw [peek, ahead, ho, Option.any_some, hk])

theorem not_isTrivia_of_startsArgument {k : Kind} (h : k.startsArgument = true) :
    k.isTrivia = false := by
  cases k <;> first | rfl | cases h

theorem Ended.not_startsArgument {rest : List Token} (h : Ended rest) :
    (aheadIn rest 0).any Kind.startsArgument = false := by
  cases hk : aheadIn rest 0 with
  | none => rfl
  | some k =>
    rw [Option.any_some, Bool.eq_false_iff]
    intro ha
    refine h.ne ?_ hk
    cases k <;> first | rfl | cases ha

theorem Ended.stops {rest : List Token} (h : Ended rest) (offset : Nat) :
    Stops 0 ⟨rest, offset, []⟩ := by
  intro power hp
  obtain ⟨k, hk, hp⟩ := Option.bind_eq_some_iff.mp hp
  refine absurd hk (h.ne ?_)
  cases k <;> first | rfl | cases hp

theorem ExprChoice.blank {tokens : List Token} {offset : Nat} {r : Rule}
    (h : ExprChoice (nested l) ⟨tokens, offset, []⟩ r) (hw : Token.Blank ws) :
    ExprChoice (nested l) ⟨ws ++ tokens, offset, []⟩ r :=
  h.of_ahead fun n => hw.aheadIn_append tokens n

theorem Rebuilds.expr {r : Rule} {ts : List Tree} (h : r.Rebuilds (ws.map .leaf ++ ts) ok)
    (hw : Token.Blank ws) (hc : ∀ rest offset, ok rest →
      ExprChoice (nested l) ⟨Rose.leavesOf ts ++ rest, offset, []⟩ r) :
    (nested (l + 1) .expr).Rebuilds (ws.map .leaf ++ ts) ok := by
  refine h.congr fun rest offset hr => ?_
  rw [Rose.leavesOf_append, Tree.leavesOf_map_leaf, List.append_assoc]
  exact ((hc rest offset hr).blank hw).eq

theorem rebuilds_leftmost {fs vs : List Tree} {k : Kind} {tokens : List Token}
    (ho : Tree.opening vs = some k) (hk : k.startsArgument = true)
    (hf : (select (nested l)).Rebuilds fs ok)
    (hargs : (arguments (nested l) fs).Makes tokens vs ok')
    (ht : Rose.leavesOf vs = Rose.leavesOf fs ++ tokens)
    (hok : ∀ rest, ok' rest → ok (tokens ++ rest)) : (leftmost (nested l)).Rebuilds vs ok' := by
  have ha := hf.andThen (f := arguments (nested l)) hargs hok
  rw [← ht] at ha
  have htriv := not_isTrivia_of_startsArgument hk
  have happ : (application (nested l)).Rebuilds vs ok' :=
    Rebuilds.trivia ha Token.blank_nil ho htriv
  refine happ.congr fun rest offset _ => ?_
  have hu : k.unaryPower = none := by cases k <;> first | rfl | cases hk
  have hpeek : peek ⟨Rose.leavesOf vs ++ rest, offset, []⟩ = some k :=
    Tree.aheadIn_of_opening ho htriv rest
  rw [leftmost, hpeek, Option.bind_some, hu]

theorem Rebuilds.operation {vs : List Tree} {k : Kind}
    (h : ((leftmost (nested l)).andThen (operators (nested l) 0)).Rebuilds vs Ended)
    (hw : Token.Blank ws) (ho : Tree.opening vs = some k) (hk : k.startsArgument = true)
    (hl : ∀ rest offset, Ended rest → lambdaAhead ⟨Rose.leavesOf vs ++ rest, offset, []⟩ = false) :
    (nested (l + 1) .expr).Rebuilds (ws.map .leaf ++ vs) Ended := by
  have htriv := not_isTrivia_of_startsArgument hk
  refine Rebuilds.expr (Rebuilds.trivia h hw ho htriv) hw fun rest offset hr => ?_
  refine .operand ?_ (hl rest offset hr)
  rw [peek, ahead, Tree.aheadIn_of_opening ho htriv, Option.any_some]
  cases k <;> first | rfl | cases hk

theorem makes_operators_nil (power : Nat) (left : List Tree) :
    (operators (nested l) power left).Makes [] left Ended := fun _ offset hr =>
  ⟨offset, operators_stop (reads_nested l) (consistent_of_clean rfl) fun power' hp =>
    absurd (hr.stops offset power' hp) (Nat.not_lt_zero power')⟩

theorem rebuilds_expr {fs vs : List Tree} {k : Kind} {tokens : List Token} (hw : Token.Blank ws)
    (ho : Tree.opening vs = some k) (hk : k.startsArgument = true)
    (hf : (select (nested l)).Rebuilds fs ok)
    (hargs : (arguments (nested l) fs).Makes tokens vs Ended)
    (ht : Rose.leavesOf vs = Rose.leavesOf fs ++ tokens)
    (hok : ∀ rest, Ended rest → ok (tokens ++ rest))
    (hl : ∀ rest offset, Ended rest → lambdaAhead ⟨Rose.leavesOf vs ++ rest, offset, []⟩ = false) :
    (nested (l + 1) .expr).Rebuilds (ws.map .leaf ++ vs) Ended := by
  have hoperand := (rebuilds_leftmost ho hk hf hargs ht hok).andThen
    (f := operators (nested l) 0) (makes_operators_nil 0 vs) fun _ hr => hr
  rw [List.append_nil] at hoperand
  exact Rebuilds.operation hoperand hw ho hk hl

theorem Rebuilds.atom {r : Rule} {ts : List Tree} {k : Kind} (h : r.Rebuilds (ws.map .leaf ++ ts) ok)
    (hw : Token.Blank ws) (ho : Tree.opening ts = some k) (hk : k.isTrivia = false)
    (hc : AtomChoice (nested l) (some k) r) :
    (nested (l + 1) .atom).Rebuilds (ws.map .leaf ++ ts) ok := by
  refine h.congr fun rest offset _ => hc.eq ?_
  rw [peek, ahead, Rose.leavesOf_append, Tree.leavesOf_map_leaf, List.append_assoc,
    hw.aheadIn_append, Tree.aheadIn_of_opening ho hk]

theorem rebuilds_var {t : Token} (hw : Token.Blank ws) (ht : t.kind = .ident) :
    (nested (l + 1) .atom).Rebuilds (ws.map .leaf ++ [.branch .var [.leaf t]]) fun _ => True := by
  have htriv : t.isTrivia = false := by
    rw [Token.isTrivia, ht]
    rfl
  have ho : Tree.opening [.branch .var [.leaf t]] = some t.kind := rfl
  have hr := (rebuilds_token Token.blank_nil htriv).node hw rfl htriv .var
  exact Rebuilds.atom hr hw (ho.trans (congrArg some ht)) rfl .var

theorem lambdaAhead_of_ident {t : Token} (ht : t.kind = .ident) {tokens : List Token}
    (hc : aheadIn tokens 0 ≠ some .colon) (ha : aheadIn tokens 0 ≠ some .atSign) (offset : Nat) :
    lambdaAhead ⟨t :: tokens, offset, []⟩ = false := by
  have htriv : t.isTrivia = false := by
    rw [Token.isTrivia, ht]
    rfl
  have hp : peek ⟨t :: tokens, offset, []⟩ = some .ident :=
    (aheadIn_cons htriv tokens).trans (congrArg some ht)
  have hn : ahead 1 ⟨t :: tokens, offset, []⟩ = aheadIn tokens 0 :=
    aheadIn_cons_succ htriv tokens 0
  simp [lambdaAhead, hp, hn, hc, ha]

theorem rebuilds_expr_select {k : Kind} (hw : Token.Blank ws) (ho : Tree.opening [a] = some k)
    (hk : k.startsArgument = true) (hs : (select (nested l)).Rebuilds [a] ok)
    (hok : ∀ rest, Ended rest → ok rest)
    (hl : ∀ rest offset, Ended rest → lambdaAhead ⟨Rose.leavesOf [a] ++ rest, offset, []⟩ = false) :
    (nested (l + 1) .expr).Rebuilds (ws.map .leaf ++ [a]) Ended :=
  rebuilds_expr hw ho hk hs ((makes_arguments_nil [a]).mono fun _ hr => hr.not_startsArgument)
    (List.append_nil _).symm hok hl

end

end Grammar

/-- A text is read as a tree whose tokens it is read as, if the tokens are read as the tree. -/
theorem Parse.parse_of_rebuilds {t : Tree} {text : String} (hl : Token.Lexes t.leaves [])
    (ht : text.toList = Token.chars t.leaves)
    (h : (Grammar.nested Grammar.maxDepth .expr).Rebuilds [t] Grammar.Ended) :
    parse text = ⟨[t], []⟩ := by
  have hlex : Token.lex text = t.leaves := by
    rw [Token.lex, ht, hl.lexFrom_eq]
  obtain ⟨o, h⟩ := h [] 0 rfl
  rw [Rose.leavesOf, Rose.leavesOf, List.append_nil, List.append_nil] at h
  rw [parse, hlex]
  exact ofTokens_of_expr rfl rfl h

end NixScope.Syntax
