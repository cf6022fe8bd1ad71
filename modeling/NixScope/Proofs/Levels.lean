import NixScope.Proofs.Modes
import NixScope.Proofs.Tree

/-!
How the tokens in a node move the lexer. A node that opens a brace, a string or an interpolation
closes it again, so an expression leaves the lexer in the modes in which it has met it, whatever
these are. Only a path at the end of the expression may be left open, and what follows ends it.
-/

namespace NixScope.Syntax

/-- A token that begins and ends nothing. -/
def Kind.isPlain (k : Kind) : Bool :=
  !(k matches leftBrace | rightBrace | dollarBrace | quote | indentedQuote | pathFragment
    | stringContent | error)

/-- What may hold interpolations. -/
inductive Literal
  | string
  | indentedString
  | path
  deriving DecidableEq, Repr

def Literal.mode : Literal → Mode
  | string => .string
  | indentedString => .indentedString
  | path => .path

/-- Where in a node the lexer is: in the code around it, behind a brace, in a literal, or in an
interpolation of a literal. -/
inductive Level
  | code
  | opened
  | literal (l : Literal)
  | hole (l : Literal)
  deriving DecidableEq, Repr

namespace Level

def isCode : Level → Bool
  | code | opened | hole _ => true
  | literal _ => false

def modes (s : List Mode) : Level → List Mode
  | code => s
  | opened => Mode.afterCode .leftBrace s
  | literal l => l.mode :: s
  | hole l => .interpolation 0 :: l.mode :: s

def token? : Level → Kind → Option Level
  | code, .leftBrace | code, .dollarBrace => some opened
  | code, .quote => some (literal .string)
  | code, .indentedQuote => some (literal .indentedString)
  | code, .pathFragment => some (literal .path)
  | opened, .rightBrace => some code
  | hole l, .rightBrace => some (literal l)
  | literal l, .dollarBrace => some (hole l)
  | literal .string, .quote => some code
  | literal .indentedString, .indentedQuote => some code
  | literal .path, k => if k = .pathFragment then some (literal .path) else none
  | literal l, k => if k = .stringContent ∨ k.isTrivia then some (literal l) else none
  | l, k => if k.isPlain then some l else none

/-- A node of the kind may stand at the level. -/
def holds (l : Level) (k : Kind) : Bool := l.isCode == (k != .interpolation)

theorem holds_code {k : Kind} (hk : k ≠ .interpolation) : code.holds k = true := by
  rw [holds, bne_iff_ne.mpr hk]
  rfl

theorem isCode_of_holds {l : Level} {k : Kind} (h : l.holds k = true) (hk : k ≠ .interpolation) :
    l.isCode = true := by
  rwa [holds, beq_iff_eq, bne_iff_ne.mpr hk] at h

/-- The trees one behind the other lead from one level to the other. -/
inductive Follows : Level → List Tree → Level → Prop
  | nil (l : Level) : Follows l [] l
  | leaf {l l' l'' : Level} {t : Token} {ts : List Tree} (h : l.token? t.kind = some l')
      (hs : Follows l' ts l'') : Follows l (.leaf t :: ts) l''
  | branch {l l' : Level} {k : Kind} {us ts : List Tree} (h : l.holds k = true)
      (hs : Follows l ts l') : Follows l (.branch k us :: ts) l'

theorem Follows.append {l l' l'' : Level} {ts us : List Tree} (h : Follows l ts l')
    (h' : Follows l' us l'') : Follows l (ts ++ us) l'' := by
  induction h with
  | nil l => exact h'
  | leaf h hs ih => exact .leaf h (ih h')
  | branch h hs ih => exact .branch h (ih h')

theorem Follows.split {l l'' : Level} {ts us : List Tree} (h : Follows l (ts ++ us) l'') :
    ∃ l', Follows l ts l' ∧ Follows l' us l'' := by
  induction ts generalizing l with
  | nil => exact ⟨l, .nil l, h⟩
  | cons t ts ih =>
    cases h with
    | leaf h hs =>
      obtain ⟨l', h₁, h₂⟩ := ih hs
      exact ⟨l', .leaf h h₁, h₂⟩
    | branch h hs =>
      obtain ⟨l', h₁, h₂⟩ := ih hs
      exact ⟨l', .branch h h₁, h₂⟩

def pathEnds (ahead : List Token) : Bool := !ahead.head?.any fun t => t.kind.continuesPath

/-- Two states of the lexer at the level, around which the modes are `s` and `t`. A path before the
level is not over until the token ahead is read. -/
inductive At (l : Level) (s t : List Mode) (ahead : List Token) : List Mode → List Mode → Prop
  | here : At l s t ahead (l.modes s) (l.modes t)
  | past (hl : l.isCode = true) (h : pathEnds ahead = true) :
      At l s t ahead (.path :: l.modes s) (l.modes t)
  | both (hl : l.isCode = true) (h : pathEnds ahead = true) :
      At l s t ahead (.path :: l.modes s) (.path :: l.modes t)

section

variable {l l' : Level} {s t s' t' : List Mode}

theorem isCode_modes (hl : l.isCode = true) (hs : Mode.isCode s = true) :
    Mode.isCode (l.modes s) = true := by
  cases l with
  | code => exact hs
  | opened =>
    match s, hs with
    | [], _ => rfl
    | .interpolation n :: s, _ => rfl
  | literal l => cases hl
  | hole l => rfl

/-- Code at a level is the code around what is in it. -/
theorem at_iff_code (hl : l.isCode = true) {ahead : List Token} :
    At l s t ahead s' t' ↔ At .code (l.modes s) (l.modes t) ahead s' t' := by
  constructor
  · intro h
    cases h with
    | here => exact .here
    | past hl h => exact .past rfl h
    | both hl h => exact .both rfl h
  · intro h
    cases h with
    | here => exact .here
    | past _ h => exact .past hl h
    | both _ h => exact .both hl h

theorem afterCode_plain {k : Kind} (hk : k.isPlain = true) (s : List Mode) :
    Mode.afterCode k s = s := by
  cases k <;> first | rfl | cases hk

theorem afterCode_rightBrace (hs : Mode.isCode s = true) :
    Mode.afterCode .rightBrace (Mode.afterCode .leftBrace s) = s := by
  match s, hs with
  | [], _ => rfl
  | .interpolation n :: s, _ => rfl

theorem afterCode_modes {k : Kind} (hl : l.isCode = true) (h : l.token? k = some l')
    (hs : Mode.isCode s = true) : Mode.afterCode k (l.modes s) = l'.modes s := by
  have hplain : k.isPlain = true → l' = l → Mode.afterCode k (l.modes s) = l'.modes s := by
    rintro hk rfl
    exact afterCode_plain hk _
  cases l with
  | code =>
    cases k <;> cases h <;> first
      | exact hplain rfl rfl
      | rfl
      | match s, hs with
        | [], _ => rfl
        | .interpolation n :: s, _ => rfl
  | opened =>
    cases k <;> cases h <;> first
      | exact hplain rfl rfl
      | exact afterCode_rightBrace hs
  | literal o => cases hl
  | hole o =>
    cases k <;> cases h <;> first
      | exact hplain rfl rfl
      | rfl

theorem after_literal {k : Kind} {o : Literal} (h : (literal o).token? k = some l')
    (s : List Mode) : Mode.after k (o.mode :: s) = l'.modes s := by
  cases o <;> cases k <;> cases h <;> rfl

theorem ne_error_of_token? {k : Kind} (h : l.token? k = some l') : k ≠ .error := by
  rintro rfl
  match l with
  | code => cases h
  | opened => cases h
  | hole o => cases h
  | literal .string => cases h
  | literal .indentedString => cases h
  | literal .path => cases h

theorem At.alike_code {ahead : List Token} {o : Token} (h : At l s t (o :: ahead) s' t')
    (hl : l.isCode = true) (hs : Mode.isCode s = true) (ht : Mode.isCode t = true) :
    Mode.Alike o.kind s' t' ∧ Mode.after o.kind s' = Mode.afterCode o.kind (l.modes s) ∧
      Mode.after o.kind t' = Mode.afterCode o.kind (l.modes t) := by
  have hs' := isCode_modes hl hs
  have ht' := isCode_modes hl ht
  cases h with
  | here => exact ⟨.code hs' ht', Mode.after_code hs' _, Mode.after_code ht' _⟩
  | past _ hp =>
    have hk : o.kind.continuesPath = false := by simpa [pathEnds] using hp
    exact ⟨.ended hk hs' ht', Mode.after_path hk, Mode.after_code ht' _⟩
  | both _ hp =>
    have hk : o.kind.continuesPath = false := by simpa [pathEnds] using hp
    exact ⟨.path hs' ht', Mode.after_path hk, Mode.after_path hk⟩

theorem At.left_eq {ahead : List Token} (h : At l s t ahead s' t') :
    s' = l.modes s ∨ s' = .path :: l.modes s ∧ pathEnds ahead = true := by
  cases h with
  | here => exact .inl rfl
  | past hl h => exact .inr ⟨rfl, h⟩
  | both hl h => exact .inr ⟨rfl, h⟩

theorem At.literal_eq {ahead : List Token} {o : Literal} (h : At (literal o) s t ahead s' t') :
    s' = o.mode :: s ∧ t' = o.mode :: t := by
  cases h with
  | here => exact ⟨rfl, rfl⟩
  | past hl h => cases hl
  | both hl h => cases hl

theorem At.token {ahead : List Token} {o : Token} (h : At l s t (o :: ahead) s' t')
    (hl : l.token? o.kind = some l') (hs : Mode.isCode s = true) (ht : Mode.isCode t = true) :
    Mode.Lockstep [o.kind] s' t' ∧
      At l' s t ahead (Mode.run [o.kind] s') (Mode.run [o.kind] t') := by
  have hne := ne_error_of_token? hl
  cases hc : l.isCode with
  | true =>
    obtain ⟨ha, hs', ht'⟩ := h.alike_code hc hs ht
    rw [afterCode_modes hc hl hs] at hs'
    rw [afterCode_modes hc hl ht] at ht'
    refine ⟨⟨hne, ha, trivial⟩, ?_⟩
    rw [Mode.run_cons, Mode.run_cons, Mode.run_nil, Mode.run_nil, hs', ht']
    exact .here
  | false =>
    cases l with
    | literal m =>
      obtain ⟨rfl, rfl⟩ := h.literal_eq
      have ha : Mode.Alike o.kind (m.mode :: s) (m.mode :: t) := by
        cases m with
        | string => exact .string s t
        | indentedString => exact .indentedString s t
        | path => exact .path hs ht
      refine ⟨⟨hne, ha, trivial⟩, ?_⟩
      rw [Mode.run_cons, Mode.run_cons, Mode.run_nil, Mode.run_nil, after_literal hl,
        after_literal hl]
      exact .here
    | code => cases hc
    | opened => cases hc
    | hole m => cases hc

end

end Level

namespace Tree

open Level

def tokenKinds (t : Tree) : List Kind := t.leaves.map Token.kind

/-- The tree keeps two states of the lexer alike and at the level where it stands. -/
def Balanced (tree : Tree) (after : List Token) : Prop :=
  ∀ k us, tree = .branch k us → ∀ (l : Level) (s t s' t' : List Mode), l.holds k = true →
    Mode.isCode s = true → Mode.isCode t = true → l.At s t (tree.leaves ++ after) s' t' →
    Mode.Lockstep tree.tokenKinds s' t' ∧
      l.At s t after (Mode.run tree.tokenKinds s') (Mode.run tree.tokenKinds t')

def AllBalanced (ts : List Tree) (after : List Token) : Prop :=
  ∀ us u vs, ts = us ++ u :: vs → u.Balanced (Rose.leavesOf vs ++ after)

theorem AllBalanced.tail {u : Tree} {us : List Tree} {after : List Token}
    (h : AllBalanced (u :: us) after) : AllBalanced us after :=
  fun as a bs he => h (u :: as) a bs (by rw [he]; rfl)

theorem follows_balanced {l l' : Level} {ts : List Tree} {after : List Token}
    {s t s' t' : List Mode} (hf : Follows l ts l')
    (hb : AllBalanced ts after) (hs : Mode.isCode s = true) (ht : Mode.isCode t = true)
    (h : l.At s t (Rose.leavesOf ts ++ after) s' t') :
    Mode.Lockstep ((Rose.leavesOf ts).map Token.kind) s' t' ∧
      l'.At s t after (Mode.run ((Rose.leavesOf ts).map Token.kind) s')
        (Mode.run ((Rose.leavesOf ts).map Token.kind) t') := by
  induction hf generalizing s' t' with
  | nil l => exact ⟨trivial, h⟩
  | @leaf l l' l'' o ts hl hf ih =>
    obtain ⟨hstep, hat⟩ := At.token h hl hs ht
    obtain ⟨hrest, hend⟩ := ih hb.tail hat
    exact ⟨Mode.Lockstep.append hstep hrest, hend⟩
  | @branch l l' k us ts hl hf ih =>
    rw [Rose.leavesOf, List.append_assoc] at h
    obtain ⟨hstep, hat⟩ := hb [] (.branch k us) ts rfl k us rfl l s t s' t' hl hs ht h
    obtain ⟨hrest, hend⟩ := ih hb.tail hat
    rw [Rose.leavesOf, List.map_append, Mode.run_append, Mode.run_append]
    exact ⟨hstep.append hrest, hend⟩

/-- The trees in a node of the kind lead back to the level of the node. A path is left open, but
nothing goes on with it. -/
def Nests (k : Kind) (ts : List Tree) (after : List Token) : Prop :=
  match k with
  | .interpolation => ∀ o, Follows (.literal o) ts (.literal o)
  | .interpolatedPath => Follows .code ts (.literal .path) ∧ pathEnds after = true
  | _ => Follows .code ts .code

theorem Nests.of_code {k : Kind} {ts : List Tree} {after : List Token} (h : Nests k ts after)
    (hk : k ≠ .interpolation) : Follows .code ts .code ∨
      Follows .code ts (.literal .path) ∧ pathEnds after = true := by
  unfold Nests at h
  split at h
  · exact absurd rfl hk
  · exact .inr h
  · exact .inl h

theorem Within.balanced {tree : Tree} {after : List Token} (h : tree.Within Nests after) :
    tree.Balanced after := by
  induction h with
  | leaf o after => exact fun k us he => by cases he
  | @branch k ts after hn hw ih =>
    rintro k us ⟨⟩ l s t s' t' hl hs ht hat
    by_cases hk : k = .interpolation
    · subst hk
      cases l with
      | literal o => exact follows_balanced (hn o) ih hs ht hat
      | code => cases hl
      | opened => cases hl
      | hole o => cases hl
    · have hc := isCode_of_holds hl hk
      rw [at_iff_code hc] at hat ⊢
      have hs' := isCode_modes hc hs
      have ht' := isCode_modes hc ht
      obtain hf | ⟨hf, hp⟩ := Nests.of_code hn hk
      · exact follows_balanced hf ih hs' ht' hat
      · obtain ⟨hstep, hat'⟩ := follows_balanced hf ih hs' ht' hat
        obtain ⟨he, he'⟩ := At.literal_eq hat'
        refine ⟨hstep, ?_⟩
        change At .code _ _ after (Mode.run ((Rose.leavesOf ts).map Token.kind) s')
          (Mode.run ((Rose.leavesOf ts).map Token.kind) t')
        rw [he, he']
        exact .both rfl hp

end Tree

end NixScope.Syntax
