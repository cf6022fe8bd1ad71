import NixScope.Proofs.Clean
import NixScope.Proofs.Parts
import NixScope.Proofs.Productions

namespace NixScope.Syntax

namespace Kind

/-- Nodes that reach as far to the right as they can. -/
def isOpen (k : Kind) : Bool := k matches letIn | withIn | assert | ifElse | lambda

def isSimple (k : Kind) : Bool :=
  k.isExpr && !(k matches binaryOp | unaryOp | hasAttr | lambda | apply)

theorem isExpr_of_isSimple {k : Kind} (h : k.isSimple = true) : k.isExpr = true := by
  simp only [isSimple, Bool.and_eq_true] at h
  exact h.1

theorem not_mem_of_isSimple {k : Kind} (h : k.isSimple = true) :
    k ∉ [binaryOp, unaryOp, hasAttr, lambda, apply] := by
  intro hk
  simp only [List.mem_cons, List.not_mem_nil, or_false] at hk
  obtain rfl | rfl | rfl | rfl | rfl := hk <;> cases h

theorem not_mem_of_function {k : Kind} (h : k.isSimple = true ∨ k = apply) :
    k.isExpr = true ∧ k ∉ [binaryOp, unaryOp, hasAttr, lambda] := by
  obtain h | rfl := h
  · have hn := not_mem_of_isSimple h
    exact ⟨isExpr_of_isSimple h, fun hk => hn (by simp_all)⟩
  · decide

end Kind

namespace Tree

structure IsBinary (ts : List Tree) (l : Tree) (o : Token) (r : Tree) : Prop where
  solid : solid ts = [l, .leaf o, r]
  left : l.isExprNode = true
  right : r.isExprNode = true

structure IsUnary (ts : List Tree) (o : Token) (t : Tree) : Prop where
  solid : solid ts = [.leaf o, t]
  operand : t.isExprNode = true

structure IsHasAttr (ts : List Tree) (b : Tree) : Prop where
  solid : ∃ o us, solid ts = [b, .leaf o, .branch .attrPath us]
  base : b.isExprNode = true

/-- Every operator on the left edge of the tree binds at least as strongly to its left. -/
inductive LeftAtLeast (power : Nat) : Tree → Prop
  | binaryOp {ts : List Tree} {l r : Tree} {o : Token} {lp rp : Nat} (hs : IsBinary ts l o r)
      (hb : o.kind.bindingPower = some (lp, rp)) (hp : power ≤ lp) (hl : LeftAtLeast power l) :
      LeftAtLeast power (.branch .binaryOp ts)
  | hasAttr {ts : List Tree} {b : Tree} (hs : IsHasAttr ts b) (hp : power ≤ Grammar.hasAttrPower)
      (hl : LeftAtLeast power b) : LeftAtLeast power (.branch .hasAttr ts)
  | other {k : Kind} {ts : List Tree} (hb : k ≠ .binaryOp) (ha : k ≠ .hasAttr) :
      LeftAtLeast power (.branch k ts)

/-- Every operator on the right edge of the tree binds more strongly to its right, and the edge does
not end in a node that could have reached further. -/
inductive RightAbove (power : Nat) : Tree → Prop
  | binaryOp {ts : List Tree} {l r : Tree} {o : Token} {lp rp : Nat} (hs : IsBinary ts l o r)
      (hb : o.kind.bindingPower = some (lp, rp)) (hp : power < rp) (hr : RightAbove power r) :
      RightAbove power (.branch .binaryOp ts)
  | unaryOp {ts : List Tree} {t : Tree} {o : Token} {rp : Nat} (hs : IsUnary ts o t)
      (hb : o.kind.unaryPower = some rp) (hp : power < rp) (hr : RightAbove power t) :
      RightAbove power (.branch .unaryOp ts)
  | other {k : Kind} {ts : List Tree} (hb : k ≠ .binaryOp) (hu : k ≠ .unaryOp)
      (ho : k.isOpen = false) : RightAbove power (.branch k ts)

inductive Ordered : Kind → List Tree → Prop
  | binaryOp {ts : List Tree} {l r : Tree} {o : Token} {lp rp : Nat} (hs : IsBinary ts l o r)
      (hb : o.kind.bindingPower = some (lp, rp)) (hl : RightAbove lp l) (hr : LeftAtLeast rp r) :
      Ordered .binaryOp ts
  | unaryOp {ts : List Tree} {t : Tree} {o : Token} {rp : Nat} (hs : IsUnary ts o t)
      (hb : o.kind.unaryPower = some rp) (hr : LeftAtLeast rp t) : Ordered .unaryOp ts
  | hasAttr {ts : List Tree} {b : Tree} (hs : IsHasAttr ts b)
      (hl : RightAbove Grammar.hasAttrPower b) : Ordered .hasAttr ts
  | apply {ts fs as : List Tree} {f a : Kind} (hs : solid ts = [.branch f fs, .branch a as])
      (hf : f.isSimple = true ∨ f = .apply) (ha : a.isSimple = true) : Ordered .apply ts
  | select {ts bs us : List Tree} {b : Kind} {o : Token}
      (hs : solid ts = [.branch b bs, .leaf o, .branch .attrPath us]) (ho : o.kind = .dot)
      (hb : b.isSimple = true) : Ordered .select ts
  | selectOr {ts bs us ds : List Tree} {b d : Kind} {o o' : Token}
      (hs : solid ts = [.branch b bs, .leaf o, .branch .attrPath us, .leaf o', .branch d ds])
      (ho : o.kind = .dot) (ho' : o'.kind = .orKw) (hb : b.isSimple = true)
      (hd : d.isSimple = true) : Ordered .select ts
  | other {k : Kind} {ts : List Tree}
      (hk : k ∉ [.binaryOp, .unaryOp, .hasAttr, .apply, .select]) : Ordered k ts

end Tree

namespace Grammar

open Rule Syntax.Tree

def keywords : List Kind := [.letKw, .withKw, .assertKw, .ifKw]

def Ends (t : Tree) (p : Place) : Prop :=
  ∀ l, p.peek.bind Kind.leftPower = some l → RightAbove l t

/-- In a clean run each phrase builds one expression, with operators no weaker than the phrase
allows, and leaves an operator ahead only if that one may not be taken. -/
structure Precise (inner : Phrase → Rule) : Prop where
  atom : ∀ {p q ts}, inner .atom p = (ts, q) → q.errors = [] →
    ∃ k us, solid ts = [.branch k us] ∧ k.isSimple = true ∧ (k.isOpen = true → Stops 0 q)
  expr : ∀ {p q ts}, inner .expr p = (ts, q) → q.errors = [] →
    ∃ k us, solid ts = [.branch k us] ∧ k.isExpr = true ∧ Stops 0 q ∧
      (p.peek.any (· ∈ keywords) = true → k.isSimple = true)
  operand : ∀ {power p q ts}, inner (.operand power) p = (ts, q) → q.errors = [] →
    ∃ k us, solid ts = [.branch k us] ∧ k.isExpr = true ∧ LeftAtLeast power (.branch k us) ∧
      Ends (.branch k us) q ∧ Stops power q

theorem stops_of_not_isOpen {k : Kind} {q : Place} (hk : k.isOpen = false) :
    k.isOpen = true → Stops 0 q := by
  rw [hk]
  intro h
  cases h

theorem ends_of_stops {k : Kind} {ts : List Tree} {q : Place} (hb : k ≠ .binaryOp)
    (hu : k ≠ .unaryOp) (ho : k.isOpen = true → Stops 0 q) : Ends (.branch k ts) q := by
  intro l hl
  apply RightAbove.other hb hu
  rw [← Bool.not_eq_true]
  intro hk
  exact absurd (ho hk l hl) (Nat.not_lt_zero l)

theorem isBinary_append {q : Place} {k a b : Kind} {ts us as bs : List Tree}
    (hk : q.peek = some k) (hl : solid ts = [.branch a as]) (ha : a.isExpr = true)
    (hr : solid us = [.branch b bs]) (hb : b.isExpr = true) :
    ∃ o, o.kind = k ∧ IsBinary (ts ++ (token q).1 ++ (trivia (token q).2).1 ++ us) (.branch a as) o
      (.branch b bs) := by
  obtain ⟨o, ho, hko⟩ := solid_token hk
  refine ⟨o, hko, ?_, ha, hb⟩
  simp [hl, hr, ho]

theorem leftPower_of_bindingPower {q : Place} {k : Kind} {l r : Nat} (hk : q.peek = some k)
    (hb : k.bindingPower = some (l, r)) : q.peek.bind Kind.leftPower = some l := by
  have hn : q.peek ≠ some .question := by
    rw [hk]
    rintro ⟨⟩
    simp [Kind.bindingPower] at hb
  rw [bind_leftPower hn, hk]
  simp [hb]

section

variable {inner : Phrase → Rule}

theorem solid_dotPath {q s : Place} {k : Kind} {us : List Tree} (hk : q.peek = some k)
    (hs : seq [token, attrPath inner] q = (us, s)) :
    ∃ t vs, solid us = [.leaf t, .branch .attrPath vs] ∧ t.kind = k := by
  obtain ⟨t, ht, hkt⟩ := solid_token hk
  have hv : ∃ vs, solid (attrPath inner (token q).2).1 = [.branch .attrPath vs] :=
    ⟨_, solid_node ..⟩
  obtain ⟨vs, hv⟩ := hv
  have hu : us = (token q).1 ++ ((attrPath inner (token q).2).1 ++ []) :=
    (congrArg Prod.fst hs).symm
  refine ⟨t, vs, ?_, hkt⟩
  rw [hu, List.append_nil, solid_append, ht, hv]
  rfl

theorem isHasAttr_append {q s : Place} {k a : Kind} {ts us as : List Tree} (hk : q.peek = some k)
    (hs : seq [token, attrPath inner] q = (us, s)) (hl : solid ts = [.branch a as])
    (ha : a.isExpr = true) : IsHasAttr (ts ++ us) (.branch a as) := by
  obtain ⟨o, vs, hv, -⟩ := solid_dotPath hk hs
  exact ⟨⟨o, vs, by simp [hl, hv]⟩, ha⟩

variable (hp : Precise inner)

include hp

theorem unary_parts {p q : Place} {r : Nat} {ts : List Tree}
    (hu : p.peek.bind Kind.unaryPower = some r) (hs : seq [token, inner (.operand r)] p = (ts, q))
    (hq : q.errors = []) :
    ∃ o t, IsUnary ts o t ∧ o.kind.unaryPower = some r ∧ LeftAtLeast r t ∧ Ends t q ∧
      Stops r q := by
  obtain ⟨k, hk, hu⟩ := Option.bind_eq_some_iff.mp hu
  obtain ⟨o, ho, rfl⟩ := solid_token hk
  generalize he : inner (.operand r) (token p).2 = a
  obtain ⟨us, s⟩ := a
  simp only [seq_cons_apply, seq_nil_apply, List.append_nil, he, Prod.mk.injEq] at hs
  obtain ⟨rfl, rfl⟩ := hs
  obtain ⟨b, bs, hb, hx, hl, hend, hstop⟩ := hp.operand he hq
  exact ⟨o, .branch b bs, ⟨by simp [ho, hb], hx⟩, hu, hl, hend, hstop⟩

theorem Selection.simple {p q : Place} {ts : List Tree} (hs : Selection inner p ts q)
    (hq : q.errors = []) :
    ∃ k us, solid ts = [.branch k us] ∧ k.isSimple = true ∧ (k.isOpen = true → Stops 0 q) := by
  cases hs with
  | atom ha hd => exact hp.atom ha hq
  | path ha hd hs ho => exact ⟨.select, _, rfl, rfl, stops_of_not_isOpen rfl⟩
  | fallback ha hd hs ho hf => exact ⟨.select, _, rfl, rfl, stops_of_not_isOpen rfl⟩
  | @broken _ s _ _ _ ha hs hd =>
    have hr : (seq [node .error token]).Reads := reads_seq (by simp [reads_node])
    have hl : (s.report .noAttrAfterDot).Leads q := by
      have he : (seq [node .error token] (s.report .noAttrAfterDot)).2 = q := congrArg Prod.snd hs
      exact he ▸ hr.moves _
    exact absurd (hl.clean hq) (s.report_not_clean _)

theorem Application.simple {p q : Place} {ts : List Tree} (ha : Application inner p ts q)
    (hq : q.errors = []) :
    ∃ k us, solid ts = [.branch k us] ∧ (k.isSimple = true ∨ k = .apply) ∧
      (k.isOpen = true → Stops 0 q) := by
  cases ha with
  | selection hs =>
    obtain ⟨k, us, hs, hk, ho⟩ := hs.simple hp hq
    exact ⟨k, us, hs, .inl hk, ho⟩
  | apply hf ha hs => exact ⟨.apply, _, rfl, .inr rfl, stops_of_not_isOpen rfl⟩

variable (h : ∀ phrase, (inner phrase).Reads)

include h

/-- The binding powers along both edges of an operation, by induction on how it was put together. -/
theorem Operation.precise {power : Nat} {p q : Place} {ts : List Tree}
    (ho : Operation inner power p ts q) (hq : q.errors = []) :
    ∃ k us, solid ts = [.branch k us] ∧ k.isExpr = true ∧ LeftAtLeast power (.branch k us) ∧
      Ends (.branch k us) q := by
  induction ho with
  | @unary power r p q ts hu hs =>
    obtain ⟨o, t, hun, hb, -, he, hst⟩ := unary_parts hp hu hs hq
    refine ⟨.unaryOp, ts, rfl, rfl, .other (by simp) (by simp), fun l hl => ?_⟩
    exact .unaryOp hun hb (hst l hl) (he l hl)
  | application ha =>
    obtain ⟨k, us, hs, hk, hst⟩ := ha.simple hp hq
    obtain ⟨hx, hn⟩ := Kind.not_mem_of_function hk
    simp only [List.mem_cons, not_or] at hn
    obtain ⟨hb, hu, ha, -⟩ := hn
    exact ⟨k, us, hs, hx, .other hb ha, ends_of_stops hb hu hst⟩
  | @hasAttr power p q s ts us hl hk hle hs ih =>
    obtain ⟨a, as, ha, hx, hla, -⟩ := ih (((reads_dotPath h).leads hs).clean hq)
    have hn := isHasAttr_append hk hs ha hx
    exact ⟨.hasAttr, _, rfl, rfl, .hasAttr hn hle hla, ends_of_stops (by simp) (by simp) (stops_of_not_isOpen rfl)⟩
  | @binaryOp power l r k p q s ts us hl hk hb hle hr hs ih ih' =>
    have hlead := ((reads_token.leads_apply q).trans (Place.leads_skipTrivia _)).trans (hr.leads h)
    obtain ⟨a, as, ha, hx, hla, -⟩ := ih (hlead.clean hq)
    obtain ⟨b, bs, hb', hx', -, he⟩ := ih' hq
    obtain ⟨o, rfl, hn⟩ := isBinary_append hk ha hx hb' hx'
    refine ⟨.binaryOp, _, rfl, rfl, .binaryOp hn hb hle hla, fun l' hl' => ?_⟩
    exact .binaryOp hn hb (hs l' hl') (he l' hl')

omit h in
theorem stops_node {kind : Kind} (rs : List Rule) {p : Place}
    (hq : (node kind (seq (rs ++ [inner .expr])) p).2.errors = []) :
    Stops 0 (node kind (seq (rs ++ [inner .expr])) p).2 := by
  simp only [node, seq_append_apply, seq_cons_apply, seq_nil_apply] at hq ⊢
  obtain ⟨k, us, -, -, hs, -⟩ := hp.expr rfl hq
  exact hs

theorem precise_operand (hs : ∀ phrase, Starts (inner phrase)) {power : Nat} {p q : Place}
    {ts : List Tree} (he : operand inner power p = (ts, q)) (hq : q.errors = []) :
    ∃ k us, solid ts = [.branch k us] ∧ k.isExpr = true ∧ LeftAtLeast power (.branch k us) ∧
      Ends (.branch k us) q ∧ Stops power q := by
  have hc := Place.consistent_of_clean (((reads_operand h power).leads he).clean hq)
  obtain ⟨us, s, hu, ho, hstop⟩ := operation_operand h hs hc
  rw [he, Prod.mk.injEq] at hu
  obtain ⟨rfl, rfl⟩ := hu
  obtain ⟨k, vs, hv, hx, hl, hend⟩ := ho.precise hp h hq
  exact ⟨k, vs, by simp [hv], hx, hl, hend, hstop⟩

theorem precise_expr (hs : ∀ phrase, Starts (inner phrase)) (p : Place)
    (hq : (expr inner p).2.errors = []) :
    ∃ k us, solid (expr inner p).1 = [.branch k us] ∧ k.isExpr = true ∧ Stops 0 (expr inner p).2 ∧
      (p.peek.any (· ∈ keywords) = true → k.isSimple = true) := by
  have hoperand : (operand inner 0 p).2.errors = [] → p.peek.any (· ∈ keywords) = false → ∃ k us,
      solid (operand inner 0 p).1 = [.branch k us] ∧ k.isExpr = true ∧
        Stops 0 (operand inner 0 p).2 ∧ (p.peek.any (· ∈ keywords) = true → k.isSimple = true) := by
    intro hq hk
    obtain ⟨k, us, hu, hx, -, -, hstop⟩ := precise_operand hp h hs rfl hq
    exact ⟨k, us, hu, hx, hstop, by simp [hk]⟩
  revert hq
  rw [expr]
  split <;> intro hq
  · exact ⟨.letIn, _, solid_node .., rfl, stops_node hp [_, _, _] hq, fun _ => rfl⟩
  · exact ⟨.withIn, _, solid_node .., rfl, stops_node hp [_, _, _] hq, fun _ => rfl⟩
  · exact ⟨.assert, _, solid_node .., rfl, stops_node hp [_, _, _] hq, fun _ => rfl⟩
  · exact ⟨.ifElse, _, solid_node .., rfl, stops_node hp [_, _, _, _, _] hq, fun _ => rfl⟩
  · rename_i hk
    revert hq
    split <;> intro hq
    · refine ⟨.lambda, _, solid_node .., rfl, stops_node hp [_, _] hq, by simp [hk, keywords]⟩
    revert hq
    split <;> intro hq
    · refine ⟨.lambda, _, solid_node .., rfl, stops_node hp [_, _] hq, by simp [hk, keywords]⟩
    · exact hoperand hq (by simp [hk, keywords])
  · rename_i hk
    revert hq
    split <;> intro hq
    · refine ⟨.lambda, _, solid_node .., rfl, stops_node hp [_, _] hq, by simp [hk, keywords]⟩
    · exact hoperand hq (by simp [hk, keywords])
  · apply hoperand hq
    cases hk : p.peek with
    | none => rfl
    | some k => simp_all [keywords]

omit h in
theorem precise_atom (p : Place) (hq : (atom inner p).2.errors = []) :
    ∃ k us, solid (atom inner p).1 = [.branch k us] ∧ k.isSimple = true ∧
      (k.isOpen = true → Stops 0 (atom inner p).2) := by
  revert hq
  rw [atom]
  split <;> intro hq
  iterate 6 · exact ⟨_, _, solid_node .., rfl, stops_of_not_isOpen rfl⟩
  · exact ⟨.string, _, solid_node .., rfl, stops_of_not_isOpen rfl⟩
  · exact ⟨.string, _, solid_node .., rfl, stops_of_not_isOpen rfl⟩
  · exact ⟨.interpolatedPath, _, solid_node .., rfl, stops_of_not_isOpen rfl⟩
  · exact ⟨.paren, _, solid_node .., rfl, stops_of_not_isOpen rfl⟩
  · exact ⟨.list, _, solid_node .., rfl, stops_of_not_isOpen rfl⟩
  iterate 2 · exact ⟨.attrSet, _, solid_node .., rfl, stops_of_not_isOpen rfl⟩
  iterate 4
    · rename_i hk
      obtain ⟨k, us, hu, -, hstop, hsimple⟩ := hp.expr rfl hq
      exact ⟨k, us, hu, hsimple (by simp [hk, keywords]), fun _ => hstop⟩
  · exact absurd hq (recover_not_clean .noExpression p)

end

theorem precise_nested (levels : Nat) : Precise (nested levels) := by
  induction levels with
  | zero =>
    have hg : ∀ {p q ts}, giveUp p = (ts, q) → q.errors ≠ [] := by
      intro p q ts he
      have hn := giveUp_not_clean p
      rwa [he] at hn
    exact ⟨fun he hq => absurd hq (hg he), fun he hq => absurd hq (hg he),
      fun he hq => absurd hq (hg he)⟩
  | succ levels ih =>
    have h := reads_nested levels
    refine ⟨?_, ?_, fun he hq => precise_operand ih h (starts_nested levels) he hq⟩
    · rintro p q ts he hq
      have ha := precise_atom ih p
      rw [show atom (nested levels) p = (ts, q) from he] at ha
      exact ha hq
    · rintro p q ts he hq
      have hx := precise_expr ih h (starts_nested levels) p
      rw [show expr (nested levels) p = (ts, q) from he] at hx
      exact hx hq

theorem Production.ordered {levels : Nat} {k : Kind} {p q : Place} {ts : List Tree}
    (hp : Production (nested levels) k p ts q) (hq : q.errors = []) : Ordered k ts := by
  have hn := precise_nested levels
  have h := reads_nested levels
  cases hp with
  | body hb hr =>
    cases hb with
    | unaryOp hu =>
      obtain ⟨o, t, ht, ho, hl, -⟩ := unary_parts hn hu hr hq
      exact .unaryOp ht ho hl
    | hole hk hp => obtain rfl | rfl := hk <;> exact .other (by decide)
    | _ => exact .other (by decide)
  | giveUp hp hr => exact .other (by decide)
  | @select _ s _ ts us ha hd hs ho =>
    have hl := (reads_dotPath h).leads hs
    obtain ⟨b, bs, hb, hsb, -⟩ := hn.atom ha (hl.clean hq)
    obtain ⟨o, vs, hv, ho⟩ := solid_dotPath (peek_of_dotAttrAhead hd) hs
    have ht : solid (ts ++ us) = [.branch b bs, .leaf o, .branch .attrPath vs] := by simp [hb, hv]
    exact .select ht ho hsb
  | @selectOr _ s u _ ts us vs ha hd hs ho hf =>
    have hl' := ((reads_token.leads_apply u).trans (Place.leads_skipTrivia _)).trans (hf.leads h)
    have hl := ((reads_dotPath h).leads hs).trans hl'
    obtain ⟨b, bs, hb, hsb, -⟩ := hn.atom ha (hl.clean hq)
    obtain ⟨o, ws, hw, ho'⟩ := solid_dotPath (peek_of_dotAttrAhead hd) hs
    obtain ⟨o', hor, hko⟩ := solid_token ho
    obtain ⟨d, ds, hd, hsd, -⟩ := hf.simple hn hq
    have ht : solid (ts ++ us ++ (token u).1 ++ (trivia (token u).2).1 ++ vs) =
        [.branch b bs, .leaf o, .branch .attrPath ws, .leaf o', .branch d ds] := by
      simp [hb, hw, hor, hd]
    exact .selectOr ht ho' hko hsb hsd
  | @apply _ s _ ts us hf ha hs =>
    have hl := (Place.leads_skipTrivia _).trans (hs.leads h)
    obtain ⟨f, fs, hf, hsf, -⟩ := hf.simple hn (hl.clean hq)
    obtain ⟨a, as, ha, hsa, -⟩ := hs.simple hn hq
    have ht : solid (ts ++ (trivia s).1 ++ us) = [.branch f fs, .branch a as] := by simp [hf, ha]
    exact .apply ht hsf hsa
  | hasAttr hl hk hs =>
    have hlead := (reads_dotPath h).leads hs
    obtain ⟨a, as, ha, hx, -, he⟩ := hl.precise hn h (hlead.clean hq)
    exact .hasAttr (isHasAttr_append hk hs ha hx) (he _ (by rw [hk]; rfl))
  | @binaryOp power l r k _ s _ ts us hl hk hb hr hs =>
    have hlead := ((reads_token.leads_apply s).trans (Place.leads_skipTrivia _)).trans (hr.leads h)
    obtain ⟨a, as, ha, hx, -, he⟩ := hl.precise hn h (hlead.clean hq)
    obtain ⟨b, bs, hb', hx', hla, -⟩ := hr.precise hn h hq
    obtain ⟨o, rfl, hbin⟩ := isBinary_append hk ha hx hb' hx'
    exact .binaryOp hbin hb (he l (leftPower_of_bindingPower hk hb)) hla

end Grammar

namespace Node

def leftOperand? (n : Node) : Option Node :=
  if n.kind = .binaryOp then BinaryOp.left? n
  else if n.kind = .hasAttr then HasAttr.base? n
  else none

def rightOperand? (n : Node) : Option Node :=
  if n.kind = .binaryOp then BinaryOp.right? n
  else if n.kind = .unaryOp then UnaryOp.operand? n
  else none

/-- The second node is the first one, its left operand, the left operand of that, and so on. -/
inductive LeftSpine : Node → Node → Prop
  | refl (n : Node) : LeftSpine n n
  | step {n l m : Node} (h : n.leftOperand? = some l) (hs : LeftSpine l m) : LeftSpine n m

inductive RightSpine : Node → Node → Prop
  | refl (n : Node) : RightSpine n n
  | step {n r m : Node} (h : n.rightOperand? = some r) (hs : RightSpine r m) : RightSpine n m

/-- Every operator on the left spine has a left binding power of at least `power`. -/
def LeftAtLeast (power : Nat) (n : Node) : Prop :=
  ∀ m, n.LeftSpine m →
    (m.kind = .binaryOp → ∃ o l r, BinaryOp.operator? m = some o ∧
      o.kind.bindingPower = some (l, r) ∧ power ≤ l) ∧
    (m.kind = .hasAttr → power ≤ Grammar.hasAttrPower)

/-- Every operator on the right spine has a right binding power above `power`, and the spine has no
node that reaches as far to the right as it can. -/
def RightAbove (power : Nat) (n : Node) : Prop :=
  ∀ m, n.RightSpine m →
    (m.kind = .binaryOp → ∃ o l r, BinaryOp.operator? m = some o ∧
      o.kind.bindingPower = some (l, r) ∧ power < r) ∧
    (m.kind = .unaryOp → ∃ o r, m.solidToken? = some o ∧ o.kind.unaryPower = some r ∧ power < r) ∧
    m.kind.isOpen = false

variable {n : Node}

theorem binary_parts {l r : Tree} {o : Token} (h : Tree.IsBinary n.trees l o r) :
    ∃ a b c, BinaryOp.left? n = some a ∧ BinaryOp.operator? n = some b ∧
      BinaryOp.right? n = some c ∧ a.tree = l ∧ b.token = o ∧ c.tree = r := by
  have he : n.exprs.map (·.tree) = [l, r] := by
    rw [tree_exprs, h.solid]
    simp [h.left, h.right]
  have ha : (BinaryOp.left? n).map (·.tree) = some l := by
    rw [BinaryOp.left?, ← List.getElem?_map, he, List.getElem?_cons_zero]
  have hb : (BinaryOp.operator? n).map (·.token) = some o := by
    rw [BinaryOp.operator?, token_solidToken?, h.solid, List.findSome?_cons,
      Tree.token?_of_isExprNode h.left]
    rfl
  have hc : (BinaryOp.right? n).map (·.tree) = some r := by
    rw [BinaryOp.right?, ← List.getElem?_map, he]
    rfl
  obtain ⟨a, ha, hl⟩ := Option.map_eq_some_iff.mp ha
  obtain ⟨b, hb, ho⟩ := Option.map_eq_some_iff.mp hb
  obtain ⟨c, hc, hr⟩ := Option.map_eq_some_iff.mp hc
  exact ⟨a, b, c, ha, hb, hc, hl, ho, hr⟩

theorem unary_parts {t : Tree} {o : Token} (h : Tree.IsUnary n.trees o t) :
    ∃ a b, n.solidToken? = some a ∧ UnaryOp.operand? n = some b ∧ a.token = o ∧ b.tree = t := by
  have ha : n.solidToken?.map (·.token) = some o := by
    rw [token_solidToken?, h.solid]
    rfl
  have hb : (UnaryOp.operand? n).map (·.tree) = some t := by
    rw [UnaryOp.operand?, tree_expr?, h.solid]
    simp [h.operand]
  obtain ⟨a, ha, ho⟩ := Option.map_eq_some_iff.mp ha
  obtain ⟨b, hb, ht⟩ := Option.map_eq_some_iff.mp hb
  exact ⟨a, b, ha, hb, ho, ht⟩

theorem hasAttr_parts {b : Tree} (h : Tree.IsHasAttr n.trees b) :
    ∃ a, HasAttr.base? n = some a ∧ a.tree = b := by
  obtain ⟨o, us, hs⟩ := h.solid
  have ha : (HasAttr.base? n).map (·.tree) = some b := by
    rw [HasAttr.base?, tree_expr?, hs]
    simp [h.base]
  exact Option.map_eq_some_iff.mp ha

theorem leftAtLeast_of_tree {power : Nat} (h : n.tree.LeftAtLeast power) : n.LeftAtLeast power := by
  intro m hm
  induction hm with
  | refl n =>
    rw [Spot.tree_eq] at h
    generalize hk : n.kind = k at h
    generalize hs : n.trees = ts at h
    cases h with
    | @binaryOp _ l r o lp rp hb ho hp hl =>
      subst hs
      obtain ⟨a, b, c, -, hop, -, -, rfl, -⟩ := binary_parts hb
      exact ⟨fun _ => ⟨b, lp, rp, hop, ho, hp⟩, by simp⟩
    | hasAttr hb hp hl => exact ⟨by simp, fun _ => hp⟩
    | other hb ha => exact ⟨fun h => absurd h hb, fun h => absurd h ha⟩
  | @step n l m hl hs ih =>
    apply ih
    rw [Spot.tree_eq] at h
    simp only [leftOperand?] at hl
    generalize hk : n.kind = k at h hl
    generalize hs : n.trees = ts at h
    cases h with
    | binaryOp hb ho hp hl' =>
      subst hs
      obtain ⟨a, b, c, hleft, -, -, rfl, -⟩ := binary_parts hb
      simp only [↓reduceIte, hleft, Option.some.injEq] at hl
      exact hl ▸ hl'
    | hasAttr hb hp hl' =>
      subst hs
      obtain ⟨a, hbase, rfl⟩ := hasAttr_parts hb
      simp only [reduceCtorEq, ↓reduceIte, hbase, Option.some.injEq] at hl
      exact hl ▸ hl'
    | other hb ha => simp [hb, ha] at hl

theorem rightAbove_of_tree {power : Nat} (h : n.tree.RightAbove power) : n.RightAbove power := by
  intro m hm
  induction hm with
  | refl n =>
    rw [Spot.tree_eq] at h
    generalize hk : n.kind = k at h
    generalize hs : n.trees = ts at h
    cases h with
    | @binaryOp _ l r o lp rp hb ho hp hr =>
      subst hs
      obtain ⟨a, b, c, -, hop, -, -, rfl, -⟩ := binary_parts hb
      exact ⟨fun _ => ⟨b, lp, rp, hop, ho, hp⟩, by simp, rfl⟩
    | @unaryOp _ t o rp hu ho hp hr =>
      subst hs
      obtain ⟨a, b, hop, -, rfl, -⟩ := unary_parts hu
      exact ⟨by simp, fun _ => ⟨a, rp, hop, ho, hp⟩, rfl⟩
    | other hb hu ho => exact ⟨fun h => absurd h hb, fun h => absurd h hu, ho⟩
  | @step n r m hr hs ih =>
    apply ih
    rw [Spot.tree_eq] at h
    simp only [rightOperand?] at hr
    generalize hk : n.kind = k at h hr
    generalize hs : n.trees = ts at h
    cases h with
    | binaryOp hb ho hp hr' =>
      subst hs
      obtain ⟨a, b, c, -, -, hright, -, -, rfl⟩ := binary_parts hb
      simp only [↓reduceIte, hright, Option.some.injEq] at hr
      exact hr ▸ hr'
    | unaryOp hu ho hp hr' =>
      subst hs
      obtain ⟨a, b, -, hoperand, -, rfl⟩ := unary_parts hu
      simp only [reduceCtorEq, ↓reduceIte, hoperand, Option.some.injEq] at hr
      exact hr ▸ hr'
    | other hb hu ho => simp [hb, hu] at hr

theorem apply_parts {f a : Kind} {fs as : List Tree}
    (h : Tree.solid n.trees = [.branch f fs, .branch a as]) (hf : f.isExpr = true)
    (ha : a.isExpr = true) :
    ∃ b c, Apply.function? n = some b ∧ Apply.argument? n = some c ∧ b.kind = f ∧ c.kind = a := by
  have he : n.exprs.map (·.tree) = [.branch f fs, .branch a as] := by
    rw [tree_exprs, h]
    simp [hf, ha]
  obtain ⟨b, es, hes, hb, he⟩ := List.map_eq_cons_iff.mp he
  obtain ⟨c, es', rfl, hc, he⟩ := List.map_eq_cons_iff.mp he
  rw [Spot.tree_eq, Rose.branch.injEq] at hb hc
  exact ⟨b, c, by simp [Apply.function?, hes], by simp [Apply.argument?, hes], hb.1, hc.1⟩

theorem exists_of_map_tree {m? : Option Node} {k : Kind} {ts : List Tree}
    (h : m?.map (·.tree) = some (.branch k ts)) : ∃ m, m? = some m ∧ m.kind = k := by
  obtain ⟨m, hm, ht⟩ := Option.map_eq_some_iff.mp h
  rw [Spot.tree_eq, Rose.branch.injEq] at ht
  exact ⟨m, hm, ht.1⟩

theorem select_base {b : Kind} {bs ts : List Tree}
    (h : Tree.solid n.trees = .branch b bs :: ts) (hb : b.isExpr = true) :
    ∃ m, Select.base? n = some m ∧ m.kind = b := by
  have hd : b ≠ .dot := by
    rintro rfl
    cases hb
  have hm : (Select.base? n).map (·.tree) = some (.branch b bs) := by
    rw [Select.base?, tree_exprBefore? n rfl, h, List.takeWhile_cons]
    simp [hb, hd]
  exact exists_of_map_tree hm

theorem select_fallback {b d : Kind} {bs us ds : List Tree} {o o' : Token}
    (h : Tree.solid n.trees = [.branch b bs, .leaf o, .branch .attrPath us, .leaf o', .branch d ds])
    (ho : o.kind = .dot) (ho' : o'.kind = .orKw) (hb : b.isExpr = true) (hd : d.isExpr = true) :
    ∃ m, Select.fallback? n = some m ∧ m.kind = d := by
  have hbo : b ≠ .orKw := by
    rintro rfl
    cases hb
  have hm : (Select.fallback? n).map (·.tree) = some (.branch d ds) := by
    rw [Select.fallback?, tree_exprAfter? n rfl, h]
    simp [List.dropWhile_cons, hbo, ho, ho', hd]
  exact exists_of_map_tree hm

theorem select_no_fallback {b : Kind} {bs us : List Tree} {o : Token}
    (h : Tree.solid n.trees = [.branch b bs, .leaf o, .branch .attrPath us]) (ho : o.kind = .dot)
    (hb : b.isExpr = true) : Select.fallback? n = none := by
  have hbo : b ≠ .orKw := by
    rintro rfl
    cases hb
  have hm : (Select.fallback? n).map (·.tree) = none := by
    rw [Select.fallback?, tree_exprAfter? n rfl, h]
    simp [List.dropWhile_cons, hbo, ho]
  simpa using hm

/-- The parts of the node are there, and each operand binds at least as strongly as the node asks
for: on its left spine if it stands to the right of the operator, on its right spine if it stands to
the left. What is applied, passed or selected from is no bare operation. -/
structure InOrder (n : Node) : Prop where
  binary : n.kind = .binaryOp → ∃ l o r lp rp, BinaryOp.left? n = some l ∧
    BinaryOp.operator? n = some o ∧ BinaryOp.right? n = some r ∧
    o.kind.bindingPower = some (lp, rp) ∧ l.RightAbove lp ∧ r.LeftAtLeast rp
  unary : n.kind = .unaryOp → ∃ o t rp, n.solidToken? = some o ∧ UnaryOp.operand? n = some t ∧
    o.kind.unaryPower = some rp ∧ t.LeftAtLeast rp
  hasAttr : n.kind = .hasAttr → ∃ b, HasAttr.base? n = some b ∧
    b.RightAbove Grammar.hasAttrPower
  apply : n.kind = .apply → ∃ f a, Apply.function? n = some f ∧ Apply.argument? n = some a ∧
    f.kind ∉ [.binaryOp, .unaryOp, .hasAttr, .lambda] ∧
    a.kind ∉ [.binaryOp, .unaryOp, .hasAttr, .lambda, .apply]
  select : n.kind = .select → ∃ b, Select.base? n = some b ∧
    b.kind ∉ [.binaryOp, .unaryOp, .hasAttr, .lambda, .apply] ∧
    ∀ d, Select.fallback? n = some d → d.kind ∉ [.binaryOp, .unaryOp, .hasAttr, .lambda, .apply]

end Node

theorem Node.inOrder_of_ordered {n : Node} (h : Tree.Ordered n.kind n.trees) : n.InOrder where
  binary hk := by
    rw [hk] at h
    cases h with
    | @binaryOp _ l r o lp rp hs ho hl hr =>
      obtain ⟨a, b, c, ha, hb, hc, rfl, rfl, rfl⟩ := binary_parts hs
      exact ⟨a, b, c, lp, rp, ha, hb, hc, ho, rightAbove_of_tree hl, leftAtLeast_of_tree hr⟩
    | other hn => simp at hn
  unary hk := by
    rw [hk] at h
    cases h with
    | @unaryOp _ t o rp hs ho hr =>
      obtain ⟨a, b, ha, hb, rfl, rfl⟩ := unary_parts hs
      exact ⟨a, b, rp, ha, hb, ho, leftAtLeast_of_tree hr⟩
    | other hn => simp at hn
  hasAttr hk := by
    rw [hk] at h
    cases h with
    | hasAttr hs hl =>
      obtain ⟨a, ha, rfl⟩ := hasAttr_parts hs
      exact ⟨a, ha, rightAbove_of_tree hl⟩
    | other hn => simp at hn
  apply hk := by
    rw [hk] at h
    cases h with
    | apply hs hf ha =>
      obtain ⟨hfx, hfn⟩ := Kind.not_mem_of_function hf
      obtain ⟨b, c, hb, hc, rfl, rfl⟩ := apply_parts hs hfx (Kind.isExpr_of_isSimple ha)
      exact ⟨b, c, hb, hc, hfn, Kind.not_mem_of_isSimple ha⟩
    | other hn => simp at hn
  select hk := by
    rw [hk] at h
    cases h with
    | select hs ho hb =>
      have hbx := Kind.isExpr_of_isSimple hb
      obtain ⟨m, hm, rfl⟩ := select_base hs hbx
      refine ⟨m, hm, Kind.not_mem_of_isSimple hb, fun d hd => ?_⟩
      rw [select_no_fallback hs ho hbx] at hd
      cases hd
    | selectOr hs ho ho' hb hd =>
      have hbx := Kind.isExpr_of_isSimple hb
      obtain ⟨m, hm, rfl⟩ := select_base hs hbx
      obtain ⟨c, hc, rfl⟩ := select_fallback hs ho ho' hbx (Kind.isExpr_of_isSimple hd)
      refine ⟨m, hm, Kind.not_mem_of_isSimple hb, fun e he => ?_⟩
      rw [hc, Option.some.injEq] at he
      exact he ▸ Kind.not_mem_of_isSimple hd
    | other hn => simp at hn

/-- In a text without problems every operator stands where its binding powers put it. -/
theorem parse_precedence (text : String) (h : (parse text).errors = []) :
    ∀ n ∈ (parse text).root.descendants, n.InOrder := by
  have hclean : (Grammar.file (.start (Token.lex text))).2.errors = [] :=
    List.reverse_eq_nil_iff.mp h
  have ht : (parse text).root.tree.Everywhere Tree.Ordered := by
    apply Parse.everywhere_root (Token.lex text) (.other (by decide))
    rintro k ts ⟨levels, p, q, -, hp, hq⟩
    exact hp.ordered (hq.clean hclean)
  intro n hn
  exact Node.inOrder_of_ordered (Node.everywhere_of_mem_descendants ht hn)

theorem parse_precedence_mixed :
    (parse "!a ? b || -f x.y + 1 ++ c").errors = [] ∧
      ∀ n ∈ (parse "!a ? b || -f x.y + 1 ++ c").root.descendants, n.InOrder :=
  ⟨by decide +kernel, parse_precedence _ (by decide +kernel)⟩

end NixScope.Syntax
