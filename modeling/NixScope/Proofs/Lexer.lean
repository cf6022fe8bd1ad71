import NixScope.Syntax.Token.Lexer

namespace NixScope.Syntax

namespace Scan

/-- A length that a token at the start of `cs` may have. -/
def Fits (cs : List Char) (n : Nat) : Prop := 0 < n ∧ n ≤ cs.length

theorem takeWhile_le (f : Char → Bool) (cs : List Char) : (cs.takeWhile f).length ≤ cs.length :=
  (List.takeWhile_sublist f).length_le

theorem takeWhile_drop_le (f : Char → Bool) (cs : List Char) (n : Nat) :
    ((cs.drop n).takeWhile f).length ≤ cs.length - n := by
  simpa using takeWhile_le f (cs.drop n)

theorem isPrefixOf_length_le {ps cs : List Char} (h : ps.isPrefixOf cs) : ps.length ≤ cs.length :=
  (List.isPrefixOf_iff_prefix.mp h).length_le

theorem lt_of_isPrefixOf_drop {c : Char} {cs : List Char} {n : Nat}
    (h : [c].isPrefixOf (cs.drop n)) : n < cs.length := by
  have hl := isPrefixOf_length_le h
  simp only [List.length_cons, List.length_nil, List.length_drop] at hl
  omega

theorem pos_of_take_contains {c : Char} {cs : List Char} {n : Nat}
    (h : (cs.take n).contains c) : 0 < n := by
  cases n with
  | zero => simp at h
  | succ n => omega

theorem segments_le (cs : List Char) : segments cs ≤ cs.length := by
  fun_induction segments cs with
  | case1 => simp
  | case2 c hc => simp
  | case3 c hc => simp
  | case4 c d cs hc ih => simpa using ih
  | case5 c d cs hc => simp

theorem pathStem_le (cs : List Char) : pathStem cs ≤ cs.length := by
  fun_cases pathStem cs with
  | case1 cs => simpa using segments_le ('/' :: cs)
  | case2 cs h => simp
  | case3 cs h h' => exact segments_le cs

theorem path?_fits {cs : List Char} {n : Nat} (h : path? cs = some n) : Fits cs n := by
  obtain ⟨hc, hn⟩ := Option.ite_none_right_eq_some.mp h
  cases hn
  exact ⟨pos_of_take_contains hc, pathStem_le cs⟩

/-- The end of the part of a path before an interpolation. -/
def pathStartEnd (cs : List Char) : Nat :=
  if ['/'].isPrefixOf (cs.drop (pathStem cs)) then pathStem cs + 1 else pathStem cs

theorem pathStart?_eq_some {xs : List Char} {n : Nat} : pathStart? xs = some n ↔
    pathStartEnd xs = n ∧ '/' ∈ xs.take n ∧ ['$', '{'].isPrefixOf (xs.drop n) := by
  rw [pathStart?, Option.ite_none_right_eq_some, Option.some.injEq, Bool.and_eq_true,
    List.contains_iff_mem]
  change (_ ∈ xs.take (pathStartEnd xs) ∧ _) ∧ pathStartEnd xs = n ↔ _
  constructor
  · rintro ⟨⟨hc, hd⟩, rfl⟩
    exact ⟨rfl, hc, hd⟩
  · rintro ⟨rfl, hc, hd⟩
    exact ⟨⟨hc, hd⟩, rfl⟩

theorem pathStem_le_pathStartEnd (cs : List Char) : pathStem cs ≤ pathStartEnd cs := by
  rw [pathStartEnd]
  split <;> omega

theorem pathStart?_fits {cs : List Char} {n : Nat} (h : pathStart? cs = some n) : Fits cs n := by
  obtain ⟨-, hc, hd⟩ := pathStart?_eq_some.mp h
  have hl := isPrefixOf_length_le hd
  simp only [List.length_cons, List.length_nil, List.length_drop] at hl
  exact ⟨pos_of_take_contains (List.contains_iff_mem.mpr hc), by omega⟩

theorem searchPath?_eq_some {xs : List Char} {n : Nat} : searchPath? xs = some n ↔
    ∃ cs, xs = '<' :: cs ∧ 0 < (cs.takeWhile isPathBody).length ∧
      ['>'].isPrefixOf (cs.drop (cs.takeWhile isPathBody).length) ∧
      (cs.takeWhile isPathBody).length + 2 = n := by
  constructor
  · intro h
    unfold searchPath? at h
    split at h
    · rename_i cs
      obtain ⟨hc, hn⟩ := Option.ite_none_right_eq_some.mp h
      rw [Bool.and_eq_true, decide_eq_true_iff] at hc
      exact ⟨cs, rfl, hc.1, hc.2, Option.some.inj hn⟩
    · cases h
  · rintro ⟨cs, rfl, hpos, hd, rfl⟩
    rw [searchPath?, if_pos (by rw [decide_eq_true hpos, hd]; rfl)]

theorem searchPath?_fits {cs : List Char} {n : Nat} (h : searchPath? cs = some n) : Fits cs n := by
  obtain ⟨cs, rfl, -, hd, rfl⟩ := searchPath?_eq_some.mp h
  have hl := lt_of_isPrefixOf_drop hd
  exact ⟨by omega, by simp only [List.length_cons]; omega⟩

def schemeLength (cs : List Char) : Nat := (cs.takeWhile isSchemeChar).length

def uriBodyLength (cs : List Char) : Nat :=
  ((cs.drop (schemeLength cs + 1)).takeWhile isUriChar).length

theorem uri?_eq_some {xs : List Char} {n : Nat} : uri? xs = some n ↔
    xs.head?.any Char.isAlpha ∧ [':'].isPrefixOf (xs.drop (schemeLength xs)) ∧
      0 < uriBodyLength xs ∧ schemeLength xs + 1 + uriBodyLength xs = n := by
  cases xs with
  | nil => simp [uri?]
  | cons c xs =>
    rw [uri?, Option.ite_none_right_eq_some, Option.some.injEq, Bool.and_eq_true, Bool.and_eq_true,
      decide_eq_true_eq, and_assoc, and_assoc]
    rfl

theorem uri?_fits {cs : List Char} {n : Nat} (h : uri? cs = some n) : Fits cs n := by
  obtain ⟨-, -, hb, rfl⟩ := uri?_eq_some.mp h
  have hle := takeWhile_drop_le isUriChar cs (schemeLength cs + 1)
  rw [uriBodyLength] at hb ⊢
  exact ⟨by omega, by omega⟩

theorem symbol?_fits {cs : List Char} {t : Kind × Nat} (h : symbol? cs = some t) : Fits cs t.2 := by
  obtain ⟨s, hs, rfl⟩ := Option.map_eq_some_iff.mp h
  have hpos : ∀ s ∈ symbols, 0 < s.1.length := by decide
  have hp : s.1.isPrefixOf cs := by simpa using List.find?_some hs
  exact ⟨hpos s (List.mem_of_find?_eq_some hs), isPrefixOf_length_le hp⟩

theorem exponent_le (cs : List Char) : exponent cs ≤ cs.length := by
  fun_cases exponent cs with
  | case1 => simp
  | case2 e cs sign digits h =>
    have hd := takeWhile_drop_le Char.isDigit cs sign
    rw [Bool.and_eq_true] at h
    have hpos := of_decide_eq_true h.2
    simp only [List.length_cons]
    omega
  | case3 e cs sign digits h => simp

theorem number_fits {c : Char} {cs : List Char} (hc : c.isDigit) :
    Fits (c :: cs) (number (c :: cs)).2 := by
  have hw : 0 < ((c :: cs).takeWhile Char.isDigit).length := by simp [hc]
  fun_cases number (c :: cs) with
  | case1 whole fraction h mantissa =>
    have hf := takeWhile_drop_le Char.isDigit (c :: cs) (whole + 1)
    have he := exponent_le ((c :: cs).drop mantissa)
    rw [Bool.and_eq_true] at h
    have hpos := of_decide_eq_true h.2
    rw [List.length_drop] at he
    exact ⟨by omega, by omega⟩
  | case2 whole fraction h => exact ⟨hw, takeWhile_le _ _⟩

theorem untilCommentEnd_le (cs : List Char) : untilCommentEnd cs ≤ cs.length := by
  fun_induction untilCommentEnd cs with
  | case1 => simp
  | case2 cs => simp
  | case3 c cs h ih => simpa using ih

theorem plain_fits (c : Char) (cs : List Char) : Fits (c :: cs) (plain c cs).2 := by
  fun_cases plain c cs with
  | case1 h => exact ⟨by simp, by simpa using takeWhile_le isBlank cs⟩
  | case2 h h' => exact ⟨by simp, by simpa using takeWhile_le _ cs⟩
  | case3 h h' h'' word => exact ⟨by simp [word], by simpa [word] using takeWhile_le isIdentRest cs⟩
  | case4 h h' h'' hd => exact number_fits hd
  | case5 h h' h'' hd hs =>
    rw [Bool.and_eq_true] at hs
    have hl := isPrefixOf_length_le hs.2
    have hu := untilCommentEnd_le (cs.drop 1)
    simp only [List.length_cons, List.length_nil, List.length_drop] at hl hu
    exact ⟨by simp, by simp only [List.length_cons]; omega⟩
  | case6 h h' h'' hd hs =>
    cases ht : symbol? (c :: cs) with
    | none => exact ⟨by simp, by simp⟩
    | some t => exact symbol?_fits ht

theorem code_fits (c : Char) (cs : List Char) : Fits (c :: cs) (code c cs).2 := by
  unfold code
  cases hs : searchPath? (c :: cs) with
  | some n => exact searchPath?_fits hs
  | none =>
    cases ht : pathStart? (c :: cs) with
    | some n => exact pathStart?_fits ht
    | none =>
      cases hp : path? (c :: cs) with
      | some n => exact path?_fits hp
      | none =>
        cases hu : uri? (c :: cs) with
        | some n => exact uri?_fits hu
        | none => exact plain_fits c cs

theorem stringContent_le (cs : List Char) : stringContent cs ≤ cs.length := by
  fun_induction stringContent cs <;> simp_all

theorem indentedContent_le (cs : List Char) : indentedContent cs ≤ cs.length := by
  fun_induction indentedContent cs <;> simp_all

theorem stringContent_fits {c : Char} {cs : List Char} (hc : ¬c == '"')
    (hd : ¬['$', '{'].isPrefixOf (c :: cs)) : Fits (c :: cs) (stringContent (c :: cs)) := by
  refine ⟨?_, stringContent_le (c :: cs)⟩
  unfold stringContent
  split <;> simp_all

theorem indentedContent_eq_zero {c : Char} {cs : List Char}
    (hd : ¬['$', '{'].isPrefixOf (c :: cs)) (h : indentedContent (c :: cs) = 0) :
    ['\'', '\''].isPrefixOf (c :: cs) := by
  unfold indentedContent at h
  split at h <;> simp_all

end Scan

namespace Mode

theorem next_fits (c : Char) (cs : List Char) (modes : List Mode) :
    Scan.Fits (c :: cs) (next c cs modes).2.1 := by
  fun_induction next c cs modes with
  | case1 => exact Scan.code_fits c cs
  | case2 n modes => exact Scan.code_fits c cs
  | case3 modes h => exact ⟨by simp, by simp⟩
  | case4 modes h hd => exact ⟨by simp, Scan.isPrefixOf_length_le hd⟩
  | case5 modes h hd => exact Scan.stringContent_fits h hd
  | case6 modes hd => exact ⟨by simp, Scan.isPrefixOf_length_le hd⟩
  | case7 modes hd h =>
    exact ⟨by simp, Scan.isPrefixOf_length_le (Scan.indentedContent_eq_zero hd h)⟩
  | case8 modes hd h => exact ⟨Nat.pos_of_ne_zero h, Scan.indentedContent_le (c :: cs)⟩
  | case9 modes hd => exact ⟨by simp, Scan.isPrefixOf_length_le hd⟩
  | case10 modes hd h =>
    exact ⟨by simp [h], Scan.takeWhile_le Scan.isPathBody (c :: cs)⟩
  | case11 modes hd h ih => exact ih

end Mode

namespace Token

theorem lexFrom_skip (cs : List Char) (n : Nat) (modes : List Mode) :
    lexFrom cs n modes = lexFrom (cs.drop n) 0 modes := by
  induction cs generalizing n with
  | nil => simp [lexFrom]
  | cons c cs ih =>
    cases n with
    | zero => rfl
    | succ n => simpa [lexFrom] using ih n

/-- One round of the lexer: the first token has exactly the length that its scanner gives, and the
rest of the text is read on in the modes after it. -/
theorem lexFrom_cons (c : Char) (cs : List Char) (modes : List Mode) :
    lexFrom (c :: cs) 0 modes =
      ⟨(Mode.next c cs modes).1, String.ofList ((c :: cs).take (Mode.next c cs modes).2.1)⟩ ::
        lexFrom ((c :: cs).drop (Mode.next c cs modes).2.1) 0 (Mode.next c cs modes).2.2 := by
  obtain ⟨hpos, -⟩ := Mode.next_fits c cs modes
  rw [lexFrom]
  generalize Mode.next c cs modes = t at hpos
  obtain ⟨kind, length, modes'⟩ := t
  cases length with
  | zero => simp at hpos
  | succ n => simp [lexFrom_skip cs n modes']

theorem lexFrom_spells (cs : List Char) (modes : List Mode) :
    (lexFrom cs 0 modes).flatMap (fun t => t.text.toList) = cs := by
  induction hn : cs.length using Nat.strongRecOn generalizing cs modes with
  | ind n ih =>
    cases cs with
    | nil => simp [lexFrom]
    | cons c cs =>
      obtain ⟨hpos, hle⟩ := Mode.next_fits c cs modes
      have hlt : ((c :: cs).drop (Mode.next c cs modes).2.1).length < n := by
        rw [List.length_drop]
        omega
      rw [lexFrom_cons, List.flatMap_cons, ih _ hlt _ _ rfl]
      simp

theorem lexFrom_nonempty (cs : List Char) (n : Nat) (modes : List Mode) :
    ∀ t ∈ lexFrom cs n modes, t.text ≠ "" := by
  fun_induction lexFrom cs n modes with
  | case1 n modes => simp
  | case2 c cs n modes ih => exact ih
  | case3 c cs modes kind length modes' h ih =>
    intro t ht
    obtain rfl | ht := List.mem_cons.mp ht
    · simp [← String.toList_inj]
    · exact ih t ht

theorem join_lex (text : String) : String.join ((lex text).map Token.text) = text := by
  rw [← String.toList_inj, String.toList_join, List.flatMap_map]
  exact lexFrom_spells text.toList []

theorem widthOf_eq (ts : List Token) :
    widthOf ts = (String.join (ts.map Token.text)).utf8ByteSize := by
  induction ts with
  | nil => rfl
  | cons t ts ih =>
    rw [widthOf, ih, List.map_cons, String.join_cons, String.utf8ByteSize_append, width]

theorem width_pos_of_mem_lex {text : String} {t : Token} (h : t ∈ lex text) : 0 < t.width := by
  have hne : t.text ≠ "" := lexFrom_nonempty text.toList 0 [] t h
  rw [width, Nat.pos_iff_ne_zero]
  simpa using hne

end Token

end NixScope.Syntax
