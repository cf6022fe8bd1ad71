import NixScope.Proofs.Phrases
import NixScope.Proofs.Positions
import NixScope.Proofs.Precedence
import NixScope.Proofs.Spelling

/-!
Chains of right operands and of defaults. A right operand of an operator and the default of a
selection are read without counting a level of nesting, so the limit on nesting does not end such a
chain. Its length is bounded by the operators of the text that group to the right and the words `or`
in it, and it may be as long as there are such tokens.
-/

namespace NixScope

theorem Rose.leavesOf_sublist {α β : Type} {ts us : List (Rose α β)} (h : ts.Sublist us) :
    (leavesOf ts).Sublist (leavesOf us) := by
  induction h with
  | slnil => exact .slnil
  | cons t h ih => exact ih.trans (List.sublist_append_right _ _)
  | cons_cons t h ih => exact (List.Sublist.refl _).append ih

namespace Syntax

def Kind.groupsRight (k : Kind) : Bool := k matches implication | update | concat | orKw

def Token.groupsRight (t : Token) : Bool := t.kind.groupsRight

def Token.concat : Token := ⟨.concat, "++"⟩

namespace Grammar

def leftGrouping : List Nat := [3, 5, 7, 9, 14, 16]

/-- How many operators that group to the left may stand each in the right operand of the one before
it, from a binding power on. -/
def slack (power : Nat) : Nat := leftGrouping.countP (power ≤ ·)

theorem slack_le (power : Nat) : slack power ≤ 6 := List.countP_le_length

theorem slack_anti {l r : Nat} (h : r ≤ l) : slack l ≤ slack r := by
  apply List.countP_mono_left
  intro power _ hl
  exact decide_eq_true (Nat.le_trans h (of_decide_eq_true hl))

theorem slack_right {o : Token} {l r : Nat} (h : o.kind.bindingPower = some (l, r)) :
    slack r + 1 ≤ slack l + [o].countP Token.groupsRight := by
  obtain ⟨k, text⟩ := o
  change slack r + 1 ≤ slack l + [k].countP Kind.groupsRight
  cases k <;> cases h <;> decide

end Grammar

namespace Tree

/-- Blanks and comments apart, the trees are nodes with the property. -/
def AllNodes (P : Kind → List Tree → Prop) (ts : List Tree) : Prop :=
  ∀ t ∈ solid ts, ∃ k us, t = .branch k us ∧ P k us

def Binds (power : Nat) (k : Kind) (us : List Tree) : Prop :=
  k = .binaryOp → ∃ o l r, (solid us).findSome? token? = some o ∧
    o.kind.bindingPower = some (l, r) ∧ power ≤ l

/-- Behind the operator of a binary operation no operation stands that binds more weakly, and in
front of it stands one expression at most. -/
inductive Grouped : Kind → List Tree → Prop
  | binaryOp {P : Kind → List Tree → Prop} {ls us ts : List Tree} {o : Token} {l r : Nat}
      (hs : solid ts = solid ls ++ .leaf o :: solid us) (hl : AllNodes P ls) (hone : Lone ls)
      (hb : o.kind.bindingPower = some (l, r)) (hu : AllNodes (Binds r) us) :
      Grouped .binaryOp ts
  | other {k : Kind} {ts : List Tree} (hb : k ≠ .binaryOp) (ho : k ≠ .orKw) : Grouped k ts

section

variable {P Q : Kind → List Tree → Prop} {ts us : List Tree}

theorem allNodes_nil : AllNodes P [] := by simp [AllNodes, solid]

theorem allNodes_branch {k : Kind} : AllNodes P [.branch k us] ↔ P k us := by
  constructor
  · intro h
    obtain ⟨k, us, ⟨⟩, hp⟩ := h (.branch k us) (by simp [solid, isSolid])
    exact hp
  · intro hp t ht
    obtain rfl := List.mem_singleton.mp ht
    exact ⟨k, us, rfl, hp⟩

theorem allNodes_congr (h : solid ts = solid us) (hs : AllNodes P ts) : AllNodes P us := by
  rwa [AllNodes, ← h]

theorem AllNodes.append (h : AllNodes P ts) (h' : AllNodes P us) : AllNodes P (ts ++ us) := by
  intro t ht
  rw [solid_append, List.mem_append] at ht
  exact ht.elim (h t) (h' t)

theorem AllNodes.mono (h : AllNodes P ts) (hpq : ∀ k us, P k us → Q k us) : AllNodes Q ts := by
  intro t ht
  obtain ⟨k, us, rfl, hp⟩ := h t ht
  exact ⟨k, us, rfl, hpq k us hp⟩

theorem AllNodes.findSome?_append (h : AllNodes P ts) (o : Token) (vs : List Tree) :
    (solid ts ++ .leaf o :: vs).findSome? token? = some o := by
  have hn : (solid ts).findSome? token? = none := by
    rw [List.findSome?_eq_none_iff]
    intro t ht
    obtain ⟨k, us, rfl, -⟩ := h t ht
    rfl
  rw [List.findSome?_append, hn]
  rfl

theorem Lone.exprs_length_le (h : Lone ts) : ((solid ts).filter isExprNode).length ≤ 1 := by
  rw [Lone, sound, ← List.countP_eq_length_filter] at h
  rw [filter_solid, ← List.countP_eq_length_filter]
  refine Nat.le_trans (List.countP_mono_left fun t _ ht => ?_) h
  cases t with
  | leaf t => cases ht
  | branch k us =>
    rw [isExprNode_branch] at ht
    rw [isSound, bne_iff_ne]
    rintro rfl
    cases ht

end

end Tree

namespace Grammar

open Rule Syntax.Tree

theorem solid_operation {q : Place} {k : Kind} (hk : q.peek = some k) (ts us : List Tree) :
    ∃ o, o.kind = k ∧ solid (ts ++ (token q).1 ++ (trivia (token q).2).1 ++ us) =
      solid ts ++ .leaf o :: solid us := by
  obtain ⟨o, ho, hko⟩ := solid_token hk
  exact ⟨o, hko, by simp [ho]⟩

theorem allNodes_node {P : Kind → List Tree → Prop} {kind : Kind} (h : ∀ us, P kind us) (r : Rule)
    (p : Place) : AllNodes P (node kind r p).1 := by
  have hs : solid [.branch kind (r p.skipTrivia).1] = solid (node kind r p).1 := by
    rw [solid_node]
    rfl
  exact allNodes_congr hs (allNodes_branch.mpr (h _))

section

variable {P : Kind → List Tree → Prop} (h : ∀ us, P .error us)

include h

theorem allNodes_giveUp (p : Place) : AllNodes P (giveUp p).1 := by
  simp only [giveUp]
  split
  · exact allNodes_nil
  · simp only [seq_cons_apply, seq_nil_apply, report_apply, List.nil_append, List.append_nil]
    exact allNodes_node h _ _

theorem allNodes_recover (problem : Problem) (p : Place) : AllNodes P (recover problem p).1 := by
  simp only [recover, seq_cons_apply, seq_nil_apply, report_apply, List.nil_append, List.append_nil,
    onlyIf]
  split
  · exact allNodes_node h _ _
  · exact allNodes_nil

end

theorem allNodes_keyword (levels : Nat) {p : Place}
    (hk : p.peek.any Kind.startsStatement = true) :
    AllNodes (fun k _ => k ≠ .binaryOp) (nested levels .expr p).1 := by
  cases levels with
  | zero => exact allNodes_giveUp (by simp) p
  | succ levels =>
    obtain ⟨r, hr, he⟩ := expr_choice (nested levels) p
    have hn : nested (levels + 1) .expr p = r p := he
    rw [hn]
    cases hr with
    | operand hs hl => simp [hs] at hk
    | _ => exact allNodes_node (by simp) _ p

theorem allNodes_atom (levels : Nat) (p : Place) :
    AllNodes (fun k _ => k ≠ .binaryOp) (nested levels .atom p).1 := by
  cases levels with
  | zero => exact allNodes_giveUp (by simp) p
  | succ levels =>
    obtain ⟨r, hr, he⟩ := atom_choice (nested levels) p
    have hn : nested (levels + 1) .atom p = r p := he
    rw [hn]
    generalize ho : p.peek = o at hr
    cases hr with
    | keyword hk => exact allNodes_keyword levels (by simp [ho, hk])
    | broken hs ha => exact allNodes_recover (by simp) _ p
    | _ => exact allNodes_node (by simp) _ p

section

variable {levels : Nat} {p q : Place} {ts : List Tree}

theorem Selection.allNodes (hs : Selection (nested levels) p ts q) :
    AllNodes (fun k _ => k ≠ .binaryOp) ts := by
  cases hs with
  | atom ha hd =>
    have h := allNodes_atom levels p
    rwa [ha] at h
  | @broken _ q _ ts us ha hs hd =>
    have h := allNodes_atom levels p
    rw [ha] at h
    refine h.append ?_
    have he : us = (seq [report .noAttrAfterDot, node .error token] q).1 := by rw [hs]
    simp only [seq_cons_apply, seq_nil_apply, report_apply, List.nil_append,
      List.append_nil] at he
    rw [he]
    exact allNodes_node (by simp) _ _
  | _ => exact allNodes_branch.mpr (by simp)

theorem Application.allNodes (ha : Application (nested levels) p ts q) :
    AllNodes (fun k _ => k ≠ .binaryOp) ts := by
  cases ha with
  | selection hs => exact hs.allNodes
  | apply => exact allNodes_branch.mpr (by simp)

/-- An operation binds as strongly as it has to where it stands. -/
theorem Operation.allNodes {power : Nat} (ho : Operation (nested levels) power p ts q) :
    AllNodes (Tree.Binds power) ts := by
  induction ho with
  | application ha hu hn => exact ha.allNodes.mono fun k us hk hb => absurd hb hk
  | @binaryOp power l r k p q s ts us hl hk hb hp hr hs ih ih' =>
    obtain ⟨o, rfl, he⟩ := solid_operation hk ts us
    exact allNodes_branch.mpr fun _ => ⟨o, l, r, by rw [he, ih.findSome?_append], hb, hp⟩
  | _ => exact allNodes_branch.mpr nofun

end

theorem Production.grouped {levels : Nat} {kind : Kind} {p q : Place} {ts : List Tree}
    (h : Production (nested levels) kind p ts q) (hp : p.Consistent) : Grouped kind ts := by
  cases h with
  | body hb hr =>
    cases hb with
    | hole hk hp => obtain rfl | rfl := hk <;> exact .other (by decide) (by decide)
    | _ => exact .other (by decide) (by decide)
  | @binaryOp power l r k _ q _ ts us hl hk hb hr hs =>
    obtain ⟨o, rfl, he⟩ := solid_operation hk ts us
    have hone := hl.lone (fun p hp => lone_nested levels .atom hp) hp
    exact .binaryOp he hl.allNodes hone hb hr.allNodes
  | _ => exact .other (by decide) (by decide)

end Grammar

theorem Parse.everywhere_grouped (text : String) :
    (parse text).root.tree.Everywhere Tree.Grouped := by
  apply Parse.everywhere_root (Token.lex text) (.other (by decide) (by decide))
  rintro k ts ⟨levels, p, q, ⟨hp, -⟩, hprod, -⟩
  exact hprod.grouped (hp.consistent (Place.consistent_start _))

namespace Node

/-- The second node is the right operand of the first one or the default of it, and a node of the
same kind. -/
def DescendsTo (n m : Node) : Prop :=
  n.kind = .binaryOp ∧ m.kind = .binaryOp ∧ BinaryOp.right? n = some m ∨
    n.kind = .select ∧ m.kind = .select ∧ Select.fallback? n = some m

instance (n m : Node) : Decidable (DescendsTo n m) := inferInstanceAs (Decidable (_ ∨ _))

variable {n m : Node}

def power? (n : Node) : Option Nat :=
  if n.kind = .binaryOp then
    ((BinaryOp.operator? n).map (·.token)).bind fun o => o.kind.bindingPower.map Prod.fst
  else none

/-- How long a chain that begins at the node may be. -/
def room (n : Node) : Nat :=
  n.tree.leaves.countP Token.groupsRight + (n.power?.map Grammar.slack).getD 1

theorem room_binaryOp {l : Nat} (h : n.power? = some l) :
    n.room = n.tree.leaves.countP Token.groupsRight + Grammar.slack l := by
  rw [room, h]
  rfl

theorem room_select (h : n.kind = .select) :
    n.room = n.tree.leaves.countP Token.groupsRight + 1 := by
  rw [room, power?, if_neg (by simp [h])]
  rfl

theorem room_le (n : Node) : n.room ≤ n.tree.leaves.countP Token.groupsRight + 6 := by
  cases hp : n.power? with
  | none =>
    rw [room, hp]
    exact Nat.add_le_add_left (by decide) _
  | some l =>
    rw [room_binaryOp hp]
    exact Nat.add_le_add_left (Grammar.slack_le l) _

theorem leaves_tree (n : Node) : n.tree.leaves = Rose.leavesOf n.trees := by
  rw [Spot.tree_eq, Rose.leaves]

theorem sublist_leaves {o : Token} {us : List Tree} (h : (.leaf o :: us).Sublist n.trees)
    (hm : m.tree ∈ us) : (o :: m.tree.leaves).Sublist n.tree.leaves := by
  have hpair : [.leaf o, m.tree].Sublist n.trees :=
    ((List.singleton_sublist.mpr hm).cons_cons _).trans h
  have hs := Rose.leavesOf_sublist hpair
  rw [leaves_tree n]
  simpa [Rose.leavesOf, Rose.leaves] using hs

theorem power?_of_solid {o : Token} {l r : Nat} (hk : n.kind = .binaryOp)
    (ho : (Tree.solid n.trees).findSome? Tree.token? = some o)
    (hb : o.kind.bindingPower = some (l, r)) : n.power? = some l := by
  rw [power?, if_pos hk, BinaryOp.operator?, token_solidToken?, ho, Option.bind_some, hb]
  rfl

theorem grouped_parts (hk : n.kind = .binaryOp) (hg : Tree.Grouped n.kind n.trees) :
    ∃ o l r, n.power? = some l ∧ o.kind.bindingPower = some (l, r) ∧ o ∈ n.tree.leaves ∧
      ∀ m, BinaryOp.right? n = some m →
        (o :: m.tree.leaves).Sublist n.tree.leaves ∧ Tree.Binds r m.kind m.trees := by
  rw [hk] at hg
  generalize ht : n.trees = ts at hg
  cases hg with
  | other hb ho => exact absurd rfl hb
  | @binaryOp P ls us _ o l r hs hl hone hb hu =>
    subst ht
    have hpower : n.power? = some l := power?_of_solid hk (by rw [hs, hl.findSome?_append]) hb
    have hsub : (.leaf o :: Tree.solid us).Sublist n.trees := by
      have hsolid : (Tree.solid n.trees).Sublist n.trees := List.filter_sublist
      rw [hs] at hsolid
      exact (List.sublist_append_right _ _).trans hsolid
    refine ⟨o, l, r, hpower, hb, ?_, fun m hm => ?_⟩
    · rw [leaves_tree, Rose.leavesOf_eq]
      exact List.mem_flatMap.mpr ⟨.leaf o, hsub.subset List.mem_cons_self, List.mem_cons_self⟩
    -- one expression at most stands in front of the operator, so the second one is behind it
    · have hexprs : (n.exprs.map (·.tree))[1]? = some m.tree := by
        rw [List.getElem?_map]
        exact congrArg _ hm
      rw [tree_exprs, hs, List.filter_append, List.filter_cons_of_neg (by simp),
        List.getElem?_append_right hone.exprs_length_le] at hexprs
      have hmem : m.tree ∈ Tree.solid us := (List.mem_filter.mp (List.mem_of_getElem? hexprs)).1
      obtain ⟨k, vs, he, hbinds⟩ := hu m.tree hmem
      rw [Spot.tree_eq, Rose.branch.injEq] at he
      obtain ⟨rfl, rfl⟩ := he
      exact ⟨sublist_leaves hsub hmem, hbinds⟩

theorem fallback_parts (hg : n.tree.Everywhere Tree.Grouped) (h : Select.fallback? n = some m) :
    ∃ o, o.kind = .orKw ∧ (o :: m.tree.leaves).Sublist n.tree.leaves := by
  have hf := tree_exprAfter? n (k := .orKw) rfl
  have hm : (Select.fallback? n).map (·.tree) = some m.tree := congrArg _ h
  rw [Select.fallback?, hf] at hm
  have hsub : ((Tree.solid n.trees).dropWhile (·.kind != .orKw)).Sublist n.trees :=
    (List.dropWhile_sublist _).trans List.filter_sublist
  generalize hd : (Tree.solid n.trees).dropWhile (·.kind != .orKw) = ds at hm hsub
  cases ds with
  | nil => cases hm
  | cons d ds =>
    have hdk : d.kind = .orKw := by
      have hhead := List.head?_dropWhile_not (fun t => t.kind != .orKw) (Tree.solid n.trees)
      simpa [hd] using hhead
    cases d with
    | leaf o => exact ⟨o, hdk, sublist_leaves hsub (List.mem_of_find?_eq_some hm)⟩
    -- no node is of the kind of a word
    | branch k us =>
      rw [Spot.tree_eq] at hg
      cases hg with
      | branch hp hs =>
        cases hs _ (hsub.subset List.mem_cons_self) with
        | branch hp hs =>
          cases hdk
          cases hp with
          | other hb ho => exact absurd rfl ho

theorem power?_of_binds {r : Nat} (hk : n.kind = .binaryOp) (h : Tree.Binds r n.kind n.trees) :
    ∃ l, n.power? = some l ∧ r ≤ l := by
  obtain ⟨o, l, r', ho, hb, hle⟩ := h hk
  exact ⟨l, power?_of_solid hk ho hb, hle⟩

/-- Each step of a chain takes room. -/
theorem room_lt (h : n.DescendsTo m) (hn : n.tree.Everywhere Tree.Grouped) : m.room < n.room := by
  obtain ⟨hnk, hmk, hr⟩ | ⟨hnk, hmk, hf⟩ := h
  · obtain ⟨o, l, r, hl, hb, -, hright⟩ := grouped_parts hnk (of_everywhere hn)
    obtain ⟨hsub, hbinds⟩ := hright m hr
    obtain ⟨l', hl', hle⟩ := power?_of_binds hmk hbinds
    rw [room_binaryOp hl, room_binaryOp hl']
    have hcount := hsub.countP_le (p := Token.groupsRight)
    have hslack := Grammar.slack_right hb
    have hanti := Grammar.slack_anti hle
    simp only [List.countP_cons, List.countP_nil] at hcount hslack
    omega
  · obtain ⟨o, ho, hsub⟩ := fallback_parts hn hf
    rw [room_select hnk, room_select hmk]
    have hcount := hsub.countP_le (p := Token.groupsRight)
    have hor : o.groupsRight = true := by
      rw [Token.groupsRight, ho]
      rfl
    rw [List.countP_cons_of_pos hor] at hcount
    omega

theorem room_pos (hn : n.tree.Everywhere Tree.Grouped) : 0 < n.room := by
  by_cases hk : n.kind = .binaryOp
  · obtain ⟨o, l, r, hl, hb, ho, -⟩ := grouped_parts hk (of_everywhere hn)
    have hcount := (List.singleton_sublist.mpr ho).countP_le (p := Token.groupsRight)
    have hslack := Grammar.slack_right hb
    rw [room_binaryOp hl]
    simp only [List.countP_cons, List.countP_nil] at hcount hslack
    omega
  · rw [room, power?, if_neg hk]
    exact Nat.succ_pos _

/-- A chain is no longer than the room at its first node. -/
theorem length_le_room {c : List Node} (hc : (n :: c).IsChain DescendsTo)
    (hg : ∀ m ∈ n :: c, m.tree.Everywhere Tree.Grouped) : (n :: c).length ≤ n.room := by
  induction c generalizing n with
  | nil => exact room_pos (hg n List.mem_cons_self)
  | cons m c ih =>
    rw [List.isChain_cons_cons] at hc
    have hlt := room_lt hc.1 (hg n List.mem_cons_self)
    have hlen := ih hc.2 fun k hk => hg k (List.mem_cons_of_mem n hk)
    rw [List.length_cons]
    omega

end Node

/-- In every text a chain of right operands or of defaults is at most six nodes longer than there
are operators that group to the right and words `or`. -/
theorem Parse.descents_length_le (text : String) {c : List Node}
    (hc : c.IsChain Node.DescendsTo) (hm : ∀ n ∈ c, n ∈ (parse text).root.descendants) :
    c.length ≤ (Token.lex text).countP Token.groupsRight + 6 := by
  cases c with
  | nil => exact Nat.zero_le _
  | cons n c =>
    have hg : ∀ m ∈ n :: c, m.tree.Everywhere Tree.Grouped := fun m hmc =>
      Node.everywhere_of_descendant (Parse.everywhere_grouped text) (hm m hmc)
    obtain ⟨before, after, hlex, -⟩ :=
      Parse.lex_of_element (Node.node_mem_walk.mpr (hm n List.mem_cons_self))
    have hsub : n.tree.leaves.Sublist (Token.lex text) := by
      rw [hlex, List.append_assoc]
      exact (List.sublist_append_left _ _).trans (List.sublist_append_right _ _)
    calc (n :: c).length
      _ ≤ n.room := Node.length_le_room hc hg
      _ ≤ n.tree.leaves.countP Token.groupsRight + 6 := n.room_le
      _ ≤ (Token.lex text).countP Token.groupsRight + 6 :=
        Nat.add_le_add_right hsub.countP_le 6

/-- With one operator that groups to the right there is room for seven nodes: that one, and one of
each strength of those that group to the left. -/
theorem Parse.descents_length_le_attained :
    ∃ c : List Node, c.IsChain Node.DescendsTo ∧
      (∀ n ∈ c, n ∈ (parse "a -> b || c && d == e < f + g * h").root.descendants) ∧ c.length = 7 ∧
      c.length ≤ (Token.lex "a -> b || c && d == e < f + g * h").countP Token.groupsRight + 6 := by
  have hc : ((parse "a -> b || c && d == e < f + g * h").root.descendants.filter
      (·.kind == .binaryOp)).IsChain Node.DescendsTo := by decide +kernel
  exact ⟨_, hc, fun n hn => (List.mem_filter.mp hn).1, by decide +kernel,
    Parse.descents_length_le _ hc fun n hn => (List.mem_filter.mp hn).1⟩

def concatText : Nat → String
  | 0 => "a"
  | n + 1 => "a ++ " ++ concatText n

def Tree.concats : Nat → Tree
  | 0 => .branch .var [.leaf (Token.word "a")]
  | n + 1 => .branch .binaryOp (.branch .var [.leaf (Token.word "a")] ::
      spaced (.leaf Token.concat) ++ spaced (concats n))

namespace Token

theorem Written.concat {ts : List Token} {rest : List Char} (h : Written ts rest) :
    Written (concat :: ts) rest := by
  have hcalm : Scan.Calm ('+' :: (['+'] ++ (chars ts ++ rest))) :=
    h.calm.append (w := ['+', '+']) (by simp)
  exact ⟨(lexes_of_plain (t := Token.concat) rfl hcalm (by decide) (by decide) rfl rfl).cons
    h.lexes, hcalm⟩

theorem leaves_concats (n : Nat) : (Tree.concats (n + 1)).leaves =
    word "a" :: space :: concat :: space :: (Tree.concats n).leaves := by
  simp [Tree.concats, Tree.spaced, Rose.leaves, Rose.leavesOf]

theorem startsSolid_concats (n : Nat) : startsSolid (Tree.concats n).leaves = true := by
  cases n <;> rfl

theorem written_concats (n : Nat) : Written (Tree.concats n).leaves [] := by
  induction n with
  | zero => exact Written.word ⟨lexes_nil [], Scan.calm_nil⟩ rfl rfl
  | succ n ih =>
    rw [leaves_concats]
    exact ((ih.space (startsSolid_concats n)).concat.space rfl).word rfl rfl

theorem chars_concats (n : Nat) : chars (Tree.concats n).leaves = (concatText n).toList := by
  induction n with
  | zero => rfl
  | succ n ih =>
    rw [leaves_concats, concatText, String.toList_append, ← ih]
    rfl

theorem countP_concats (n : Nat) : (Tree.concats n).leaves.countP groupsRight = n := by
  induction n with
  | zero => rfl
  | succ n ih =>
    rw [leaves_concats]
    simp only [List.countP_cons, ih]
    rfl

end Token

namespace Grammar

open Rule Syntax.Tree Token Place

theorem opening_concats (n : Nat) : opening [concats n] = some .ident := by
  cases n <;> rfl

theorem rebuilds_leftmost_var (l : Nat) : (leftmost (nested (l + 1))).Rebuilds [concats 0]
    fun rest => aheadIn rest 0 ≠ some .dot ∧ (aheadIn rest 0).any Kind.startsArgument = false := by
  have hatom := rebuilds_var (l := l) blank_nil (t := word "a") rfl
  have hselect := rebuilds_select_atom blank_nil (opening_concats 0) rfl hatom
  exact rebuilds_leftmost (opening_concats 0) rfl hselect
    ((makes_arguments_nil [concats 0]).mono fun _ hr => hr.2) (List.append_nil _).symm
    fun _ hr => hr.1

theorem rebuilds_concats (l n : Nat) {power : Nat} (hp : power ≤ 19) :
    ((leftmost (nested (l + 1))).andThen (operators (nested (l + 1)) power)).Rebuilds
      [concats n] Ended := by
  induction n generalizing power with
  | zero =>
    have h := (rebuilds_leftmost_var l).andThen (f := operators (nested (l + 1)) power)
      (makes_operators_nil power [concats 0]) fun _ hr => ⟨hr.ne rfl, hr.not_startsArgument⟩
    rwa [List.append_nil] at h
  | succ n ih =>
    -- the right operand is read with the same rules `nested (l + 1)`, only with another power
    have hright := Rebuilds.trivia (ih (show 18 ≤ 19 by decide)) blank_space (opening_concats n) rfl
    have hbinary := (rebuilds_token blank_space (t := Token.concat) rfl).cons_any hright
    have hmake := (hbinary.wrap .binaryOp [concats 0]).andThen
      (makes_operators_nil (l := l + 1) power _) fun _ hr => hr
    have h := (rebuilds_leftmost_var l).andThen (f := operators (nested (l + 1)) power)
      (hmake.congr fun rest offset _ => operators_binary (reads_nested _) (consistent_of_clean rfl)
        (k := .concat) rfl rfl hp) fun rest _ => ⟨nofun, rfl⟩
    simpa [Rebuilds, concats, spaced, Rose.leaves, Rose.leavesOf] using h

theorem rebuilds_expr_concats (l n : Nat) :
    (nested (l + 2) .expr).Rebuilds [concats n] Ended := by
  refine Rebuilds.operation (rebuilds_concats l n (by decide)) blank_nil (opening_concats n) rfl
    fun rest offset hr => ?_
  cases n with
  | zero => exact lambdaAhead_of_ident rfl (hr.ne rfl) (hr.ne rfl) offset
  | succ n =>
    have hahead : aheadIn (space :: concat :: space :: ((concats n).leaves ++ rest)) 0 =
        some .concat := rfl
    rw [Rose.leavesOf, Rose.leavesOf, List.append_nil, leaves_concats]
    exact lambdaAhead_of_ident rfl (by simp [hahead]) (by simp [hahead]) offset

end Grammar

theorem Parse.parse_concatText (n : Nat) : parse (concatText n) = ⟨[Tree.concats n], []⟩ :=
  parse_of_rebuilds (Token.written_concats n).lexes (Token.chars_concats n).symm
    (Grammar.rebuilds_expr_concats 510 n)

theorem Tree.isBinary_concats (n : Nat) : ∃ ts, concats (n + 1) = .branch .binaryOp ts ∧
    IsBinary ts (concats 0) Token.concat (concats n) := by
  refine ⟨_, rfl, ?_, rfl, ?_⟩
  · cases n <;> rfl
  · cases n <;> rfl

/-- Behind a node with concatenations in it, the operations in it make a chain. -/
theorem Node.exists_descents {root : Node} {n : Nat} {a : Node} (ha : a ∈ root.descendants)
    (ht : a.tree = Tree.concats (n + 1)) :
    ∃ c, (a :: c).IsChain DescendsTo ∧ c.length = n ∧ ∀ m ∈ c, m ∈ root.descendants := by
  induction n generalizing a with
  | zero => exact ⟨[], .singleton a, rfl, by simp⟩
  | succ n ih =>
    obtain ⟨ts, hts, hb⟩ := Tree.isBinary_concats (n + 1)
    rw [hts, Spot.tree_eq, Rose.branch.injEq] at ht
    obtain ⟨hk, rfl⟩ := ht
    obtain ⟨-, -, m, -, -, hm, -, -, hmt⟩ := binary_parts hb
    have hmk : m.kind = .binaryOp := by
      obtain ⟨us, hus, -⟩ := Tree.isBinary_concats n
      rw [hus, Spot.tree_eq, Rose.branch.injEq] at hmt
      exact hmt.1
    have hmem : m ∈ a.exprs := List.mem_of_getElem? hm
    have hmd := mem_descendants_of_mem_nodes ha (List.mem_filter.mp hmem).1
    obtain ⟨c, hc, hlen, hall⟩ := ih hmd hmt
    refine ⟨m :: c, List.isChain_cons_cons.mpr ⟨.inl ⟨hk, hmk, hm⟩, hc⟩, ?_, ?_⟩
    · rw [List.length_cons, hlen]
    · exact fun k hk => (List.mem_cons.mp hk).elim (fun he => he ▸ hmd) (hall k)

/-- However many operators that group to the right, a chain of as many nodes is read without a
problem. -/
theorem Parse.exists_descents (n : Nat) : (parse (concatText n)).errors = [] ∧
    (Token.lex (concatText n)).countP Token.groupsRight = n ∧
    ∃ c : List Node, c.IsChain Node.DescendsTo ∧ c.length = n ∧
      ∀ m ∈ c, m ∈ (parse (concatText n)).root.descendants := by
  have hlex : Token.lex (concatText n) = (Tree.concats n).leaves := by
    rw [Token.lex, ← Token.chars_concats, (Token.written_concats n).lexes.lexFrom_eq]
  refine ⟨by rw [parse_concatText], by rw [hlex, Token.countP_concats], ?_⟩
  cases n with
  | zero => exact ⟨[], .nil, rfl, by simp⟩
  | succ n =>
    obtain ⟨ts, hts, -⟩ := Tree.isBinary_concats n
    have hlies : Tree.Lies (.branch .binaryOp ts) [] (parse (concatText (n + 1))).content [] := by
      rw [parse_concatText, hts]
      exact .here [] []
    obtain ⟨a, ha, hk, hu, -⟩ := Parse.exists_node hlies
    obtain ⟨c, hc, hlen, hall⟩ :=
      Node.exists_descents (n := n) ha (by rw [Spot.tree_eq, hk, hu, hts])
    refine ⟨a :: c, hc, by rw [List.length_cons, hlen], ?_⟩
    exact fun k hk => (List.mem_cons.mp hk).elim (fun he => he ▸ ha) (hall k)

/-- The limit on nesting does not limit the nesting of right operands. -/
theorem Parse.exists_descents_over_maxDepth : (parse (concatText 513)).errors = [] ∧
    ∃ c : List Node, c.IsChain Node.DescendsTo ∧ Grammar.maxDepth < c.length ∧
      ∀ m ∈ c, m ∈ (parse (concatText 513)).root.descendants := by
  obtain ⟨hc, -, c, hchain, hlen, hall⟩ := Parse.exists_descents 513
  exact ⟨hc, c, hchain, by rw [hlen]; decide, hall⟩

end Syntax

end NixScope
