import NixScope.Proofs.Subexpressions

/-!
The paths of the lexer and the paths of the tree. The lexer begins a path wherever the start of one
stands in code, and the tree of a text without problems has a node for each. But a path may also
begin right where another one ends, and then the node goes on.
-/

namespace NixScope

namespace Rose

variable {α β : Type}

mutual

def branches : Rose α β → List β
  | leaf _ => []
  | branch b ts => b :: branchesOf ts

def branchesOf : List (Rose α β) → List β
  | [] => []
  | t :: ts => t.branches ++ branchesOf ts

end

theorem branchesOf_eq (ts : List (Rose α β)) : branchesOf ts = ts.flatMap branches := by
  induction ts with
  | nil => rfl
  | cons t ts ih => rw [branchesOf, ih, List.flatMap_cons]

end Rose

namespace Syntax

theorem PlacedTree.map_kind_nodes (above : List Spot) (t : PlacedTree) :
    (nodes above t).map (·.kind) = t.tree.branches := by
  induction t using Rose.induct generalizing above with
  | leaf t => rfl
  | branch m ts ih =>
    rw [nodes_branch, tree_branch, Rose.branches, Rose.branchesOf_eq, List.map_cons,
      List.map_flatMap, List.flatMap_map]
    congr 1
    rw [List.flatMap_def, List.flatMap_def]
    congr 1
    exact List.map_congr_left fun u hu => ih u hu _

theorem Node.length_filter_kind (n : Node) (k : Kind) :
    (n.descendants.filter (·.kind == k)).length = n.tree.branches.count k := by
  have hkinds : n.descendants.map (·.kind) = n.tree.branches :=
    PlacedTree.map_kind_nodes n.above n.placed
  rw [← hkinds, List.count, List.countP_map, List.countP_eq_length_filter]
  rfl

namespace Scan

/-- Of the characters that cannot go on with a path, only the home directory begins one. -/
theorem eq_home_of_pathFragment {c : Char} {cs : List Char}
    (h : (code c cs).1 = .pathFragment) (hc : isPathBody c = false) : c = '~' := by
  have hbody : isPathChar c = false ∧ (c == '/') = false := by
    simpa [isPathBody, Bool.or_eq_false_iff] using hc
  refine Decidable.byContradiction fun hne => ?_
  have hsegments : segments (c :: cs) = 0 := by
    cases cs <;> simp [segments, hbody.1, hbody.2]
  have hstem : pathStem (c :: cs) = 0 := by
    rw [pathStem_other hne, hsegments]
  have hend : pathStartEnd (c :: cs) = 0 := by
    have hslash : ¬ '/' = c := fun he => by simp [← he] at hbody
    simp [pathStartEnd, hstem, hslash]
  obtain ⟨n, he⟩ | ⟨n, hp, -⟩ | ⟨n, he⟩ | ⟨n, he⟩ | he := code_cases c cs
  · simp [he] at h
  · obtain ⟨rfl, hmem, -⟩ := pathStart?_eq_some.mp hp
    rw [hend] at hmem
    cases hmem
  · simp [he] at h
  · simp [he] at h
  · rw [he] at h
    exact plain_ne_pathFragment c cs h

end Scan

namespace Mode

/-- A path begins with `c :: cs`. In a path it does so only if the path ends there. -/
def entersPath (c : Char) (cs : List Char) : List Mode → Bool
  | [] | .interpolation _ :: _ => (Scan.code c cs).1 == .pathFragment
  | .string :: _ | .indentedString :: _ => false
  | .path :: modes =>
    !(['$', '{'].isPrefixOf (c :: cs) || Scan.isPathBody c) && entersPath c cs modes

def freshPaths : List Kind → List Mode → Nat
  | [], _ => 0
  | k :: ks, s =>
    (if k = .pathFragment ∧ isCode s = true then 1 else 0) + freshPaths ks (after k s)

theorem freshPaths_append (ks ks' : List Kind) (s : List Mode) :
    freshPaths (ks ++ ks') s = freshPaths ks s + freshPaths ks' (run ks s) := by
  induction ks generalizing s with
  | nil => exact (Nat.zero_add _).symm
  | cons k ks ih => rw [List.cons_append, freshPaths, freshPaths, ih, run_cons, Nat.add_assoc]

variable {c : Char} {cs : List Char} {s : List Mode}

theorem next_string_ne {m : Mode} (hm : m = .string ∨ m = .indentedString) :
    (next c cs (m :: s)).1 ≠ .pathFragment := by
  intro h
  obtain rfl | rfl := hm
  · rw [next] at h
    split at h
    · cases h
    split at h <;> cases h
  · rw [next] at h
    split at h
    · cases h
    split at h <;> cases h

/-- What begins a path is a fragment that goes on with none. -/
theorem entersPath_iff : entersPath c cs s = true ↔
    (next c cs s).1 = .pathFragment ∧ (isCode s = true ∨ Scan.isPathBody c = false) := by
  induction s with
  | nil => simp [entersPath, next, isCode]
  | cons m s ih =>
    cases m with
    | interpolation n => simp [entersPath, next, isCode]
    | string => simp [entersPath, next_string_ne (.inl rfl)]
    | indentedString => simp [entersPath, next_string_ne (.inr rfl)]
    | path =>
      by_cases hd : ['$', '{'].isPrefixOf (c :: cs)
      · rw [(next_dollarBrace hd _).1]
        simp [entersPath, hd]
      · by_cases hc : Scan.isPathBody c = true
        · simp [entersPath, hc, isCode]
        · rw [next_path hd hc, entersPath, Bool.and_eq_true, ih]
          simp [hd, hc]

/-- Where a path begins that is not in code, there is the home directory. -/
theorem eq_home_of_entersPath (hs : ∀ u, s = .path :: u → isCode u = true)
    (h : entersPath c cs s = true) (hc : isCode s = false) : c = '~' := by
  match s, hs with
  | [], _ => cases hc
  | .interpolation n :: s, _ => cases hc
  | .string :: s, _ => cases h
  | .indentedString :: s, _ => cases h
  | .path :: s, hs =>
    rw [entersPath, Bool.and_eq_true, Bool.not_eq_true', Bool.or_eq_false_iff, entersPath_iff,
      next_code (hs s rfl)] at h
    exact Scan.eq_home_of_pathFragment h.2.1 h.1.2

end Mode

namespace Token

open Mode

/-- The modes in which the lexer is each time that it begins a path, as it goes over a text whose
first `skipped` characters belong to a token already given. -/
def pathEntriesFrom : List Char → (skipped : Nat) → List Mode → List (List Mode)
  | [], _, _ => []
  | _ :: cs, n + 1, modes => pathEntriesFrom cs n modes
  | c :: cs, 0, modes =>
    match Mode.next c cs modes with
    | (_, length, after) =>
      (if entersPath c cs modes then [modes] else []) ++ pathEntriesFrom cs (length - 1) after

def pathEntries (text : String) : List (List Mode) := pathEntriesFrom text.toList 0 []

section

variable (c : Char) (cs : List Char) (s : List Mode)

theorem map_kind_lexFrom_cons : (lexFrom (c :: cs) 0 s).map Token.kind = (next c cs s).1 ::
    (lexFrom cs ((next c cs s).2.1 - 1) (next c cs s).2.2).map Token.kind := rfl

theorem pathEntriesFrom_cons : pathEntriesFrom (c :: cs) 0 s =
    (if entersPath c cs s then [s] else []) ++
      pathEntriesFrom cs ((next c cs s).2.1 - 1) (next c cs s).2.2 := rfl

end

section

variable {c : Char} {cs : List Char} {n : Nat} {s : List Mode}

theorem lockstep_lexFrom_cons (h : Lockstep ((lexFrom (c :: cs) 0 s).map Token.kind) s s) :
    (∀ u, s = .path :: u → isCode u = true) ∧
      Lockstep ((lexFrom cs ((next c cs s).2.1 - 1) (next c cs s).2.2).map Token.kind)
        (next c cs s).2.2 (next c cs s).2.2 := by
  rw [map_kind_lexFrom_cons] at h
  obtain ⟨-, ha, h⟩ := h
  rw [← next_after ha.left] at h
  exact ⟨ha.left, h⟩

theorem countP_pathEntriesFrom (h : Lockstep ((lexFrom cs n s).map Token.kind) s s) :
    (pathEntriesFrom cs n s).countP isCode = freshPaths ((lexFrom cs n s).map Token.kind) s := by
  induction cs generalizing n s with
  | nil => rfl
  | cons c cs ih =>
    cases n with
    | succ n => exact ih h
    | zero =>
      obtain ⟨hp, h⟩ := lockstep_lexFrom_cons h
      rw [pathEntriesFrom_cons, List.countP_append, ih h, map_kind_lexFrom_cons, freshPaths,
        ← next_after hp]
      congr 1
      by_cases hs : isCode s = true
      · simp only [entersPath_iff, hs, true_or, and_true]
        split <;> simp [hs]
      · simp only [hs]
        split <;> simp [hs]

theorem isCode_of_mem_pathEntriesFrom (h : Lockstep ((lexFrom cs n s).map Token.kind) s s)
    (hcs : '~' ∉ cs) : ∀ u ∈ pathEntriesFrom cs n s, isCode u = true := by
  induction cs generalizing n s with
  | nil => exact fun u hu => by cases hu
  | cons c cs ih =>
    rw [List.mem_cons, not_or] at hcs
    cases n with
    | succ n => exact ih h hcs.2
    | zero =>
      obtain ⟨hp, h⟩ := lockstep_lexFrom_cons h
      intro u hu
      rw [pathEntriesFrom_cons, List.mem_append] at hu
      obtain hu | hu := hu
      · obtain ⟨he, hu⟩ := List.mem_ite_nil_right.mp hu
        obtain rfl := List.mem_singleton.mp hu
        rw [← Bool.not_eq_false]
        intro hc
        exact hcs.1 (eq_home_of_entersPath hp he hc).symm
      · exact ih h hcs.2 u hu

end

end Token

namespace Level

open Mode

def inPath : Level → Nat
  | literal .path | hole .path => 1
  | _ => 0

theorem inPath_token? {l l' : Level} {k : Kind} (h : l.token? k = some l') :
    (if k = .pathFragment ∧ l.isCode = true then 1 else 0) + l.inPath = l'.inPath := by
  match l with
  | code => cases k <;> cases h <;> rfl
  | opened => cases k <;> cases h <;> rfl
  | hole .string => cases k <;> cases h <;> rfl
  | hole .indentedString => cases k <;> cases h <;> rfl
  | hole .path => cases k <;> cases h <;> rfl
  | literal .string => cases k <;> cases h <;> rfl
  | literal .indentedString => cases k <;> cases h <;> rfl
  | literal .path => cases k <;> cases h <;> rfl

variable {l l' : Level} {s s' : List Mode} {ahead : List Token} {o : Token}

theorem At.isCode_eq (h : At l s s (o :: ahead) s' s') (hs : Mode.isCode s = true)
    (ho : o.kind = .pathFragment) : Mode.isCode s' = l.isCode := by
  cases hc : l.isCode with
  | true =>
    obtain rfl | ⟨-, hp⟩ := h.left_eq
    · exact isCode_modes hc hs
    · simp [pathEnds, ho, Kind.continuesPath] at hp
  | false =>
    cases l with
    | literal m =>
      rw [h.literal_eq.1]
      cases m <;> rfl
    | code => cases hc
    | opened => cases hc
    | hole m => cases hc

theorem At.freshPaths_token (h : At l s s (o :: ahead) s' s') (hl : l.token? o.kind = some l')
    (hs : Mode.isCode s = true) : freshPaths [o.kind] s' + l.inPath = l'.inPath := by
  rw [← inPath_token? hl, freshPaths, freshPaths, Nat.add_zero]
  by_cases ho : o.kind = .pathFragment
  · rw [h.isCode_eq hs ho]
  · simp only [ho, false_and]

end Level

namespace Tree

open Level Mode

/-- How many paths are in the trees. -/
def pathsOf (ts : List Tree) : Nat := (Rose.branchesOf ts).count .interpolatedPath

theorem pathsOf_cons (t : Tree) (ts : List Tree) :
    pathsOf (t :: ts) = pathsOf [t] + pathsOf ts := by
  simp [pathsOf, Rose.branchesOf, List.count_append]

theorem pathsOf_singleton (t : Tree) : pathsOf [t] = t.branches.count .interpolatedPath := by
  rw [pathsOf, Rose.branchesOf, Rose.branchesOf, List.append_nil]

theorem pathsOf_branch (k : Kind) (ts : List Tree) :
    pathsOf [.branch k ts] = (if k = .interpolatedPath then 1 else 0) + pathsOf ts := by
  simp [pathsOf, Rose.branchesOf, Rose.branches, List.count_cons, Nat.add_comm]

/-- As many paths begin in the tree for the lexer as it has nodes for them. -/
def Counted (tree : Tree) (after : List Token) : Prop :=
  ∀ k us, tree = .branch k us → ∀ (l : Level) (s s' : List Mode), l.holds k = true →
    Mode.isCode s = true → l.At s s (tree.leaves ++ after) s' s' →
    freshPaths tree.tokenKinds s' = pathsOf [tree]

def AllCounted (ts : List Tree) (after : List Token) : Prop :=
  ∀ us u vs, ts = us ++ u :: vs → u.Counted (Rose.leavesOf vs ++ after)

theorem AllCounted.tail {u : Tree} {us : List Tree} {after : List Token}
    (h : AllCounted (u :: us) after) : AllCounted us after :=
  fun as a bs he => h (u :: as) a bs (by rw [he]; rfl)

/-- Trees that lead into a path begin one more than they have nodes for. -/
theorem follows_counted {l l' : Level} {ts : List Tree} {after : List Token} {s s' : List Mode}
    (hf : Follows l ts l') (hb : AllBalanced ts after) (hc : AllCounted ts after)
    (hs : Mode.isCode s = true) (h : l.At s s (Rose.leavesOf ts ++ after) s' s') :
    freshPaths ((Rose.leavesOf ts).map Token.kind) s' + l.inPath = pathsOf ts + l'.inPath := by
  induction hf generalizing s' with
  | nil l => rfl
  | @leaf l l' l'' o ts hl hf ih =>
    obtain ⟨-, hat⟩ := At.token h hl hs hs
    have hrest := ih hb.tail hc.tail hat
    have hfirst := At.freshPaths_token h hl hs
    change freshPaths ([o.kind] ++ (Rose.leavesOf ts).map Token.kind) s' + l.inPath =
      pathsOf ts + l''.inPath
    rw [freshPaths_append]
    omega
  | @branch l l' k us ts hl hf ih =>
    rw [Rose.leavesOf, List.append_assoc] at h
    obtain ⟨-, hat⟩ := hb [] (.branch k us) ts rfl k us rfl l s s s' s' hl hs hs h
    have hrest := ih hb.tail hc.tail hat
    have hfirst := hc [] (.branch k us) ts rfl k us rfl l s s' hl hs h
    rw [Rose.leavesOf, List.map_append, freshPaths_append, pathsOf_cons]
    rw [tokenKinds] at hfirst hrest
    omega

theorem Within.counted {tree : Tree} {after : List Token} (h : tree.Within Nests after) :
    tree.Counted after := by
  induction h with
  | leaf o after => exact fun k us he => by cases he
  | @branch k ts after hn hw ih =>
    rintro k us ⟨⟩ l s s' hl hs hat
    have hb : AllBalanced ts after := AllWithin.balanced hw
    rw [pathsOf_branch]
    by_cases hi : k = .interpolation
    · subst hi
      cases l with
      | literal o =>
        have hcount := follows_counted (hn o) hb ih hs hat
        rw [if_neg (by decide), Nat.zero_add]
        exact Nat.add_right_cancel hcount
      | code => cases hl
      | opened => cases hl
      | hole o => cases hl
    · have hc := isCode_of_holds hl hi
      rw [at_iff_code hc] at hat
      have hs' := isCode_modes hc hs
      by_cases hp : k = .interpolatedPath
      · subst hp
        have hcount := follows_counted hn.1 hb ih hs' hat
        rw [if_pos rfl, Nat.add_comm]
        exact hcount
      · have hf : Follows .code ts .code := by
          unfold Nests at hn
          split at hn
          · exact absurd rfl hi
          · exact absurd rfl hp
          · exact hn
        have hcount := follows_counted hf hb ih hs' hat
        rw [if_neg hp, Nat.zero_add]
        exact hcount

end Tree

namespace Parse

open Mode Syntax.Tree

/-- The tree of a text without problems has a node for each path that the lexer begins in code. A
path that it begins right where another one ends has no node of its own, so the numbers are the same
exactly if there is no such path. Without a home directory in the text there is none. -/
theorem interpolatedPaths_eq (text : String) (h : (parse text).errors = []) :
    let nodes := (parse text).root.descendants.filter (·.kind == .interpolatedPath)
    nodes.length = (Token.pathEntries text).countP isCode ∧
      (nodes.length = (Token.pathEntries text).length ↔
        ∀ modes ∈ Token.pathEntries text, isCode modes = true) ∧
      ('~' ∉ text.toList → nodes.length = (Token.pathEntries text).length) := by
  intro nodes
  have hw := within_nests (Token.lex text) h
  have hat : Level.At .code [] [] ((parse text).tree.leaves ++ []) [] [] := .here
  obtain ⟨hstep, -⟩ := hw.balanced .root _ rfl .code [] [] [] [] rfl rfl rfl hat
  have hpaths := hw.counted .root _ rfl .code [] [] rfl rfl hat
  rw [tokenKinds, leaves_ofTokens] at hstep hpaths
  have hnodes : nodes.length = (Token.pathEntries text).countP isCode := by
    rw [Node.length_filter_kind, tree_root, ← pathsOf_singleton, Token.pathEntries,
      Token.countP_pathEntriesFrom hstep]
    exact hpaths.symm
  have hall : nodes.length = (Token.pathEntries text).length ↔
      ∀ modes ∈ Token.pathEntries text, isCode modes = true := by
    rw [hnodes, List.countP_eq_length]
  refine ⟨hnodes, hall, fun ht => hall.mpr ?_⟩
  exact Token.isCode_of_mem_pathEntriesFrom hstep ht

theorem interpolatedPaths_eq_two :
    (parse "f ./a/${b}/c ~/${d}").errors = [] ∧
      ((parse "f ./a/${b}/c ~/${d}").root.descendants.filter
        (·.kind == .interpolatedPath)).length =
        (Token.pathEntries "f ./a/${b}/c ~/${d}").length := by
  have hclean : (parse "f ./a/${b}/c ~/${d}").errors = [] := by decide +kernel
  exact ⟨hclean, (interpolatedPaths_eq _ hclean).2.1.mpr (by decide +kernel)⟩

/-- The lexer begins a second path at the home directory, and the tree has one node for both. -/
theorem interpolatedPaths_merged :
    (parse "./${x}~/${y}").errors = [] ∧
      (parse "./${x}~/${y}").root.nodes.map (·.kind) = [.interpolatedPath] ∧
      Token.pathEntries "./${x}~/${y}" = [[], [.path]] ∧
      ((parse "./${x}~/${y}").root.descendants.filter (·.kind == .interpolatedPath)).length ≠
        (Token.pathEntries "./${x}~/${y}").length := by
  decide +kernel

end Parse

end Syntax

end NixScope
