import NixScope.Proofs.Modes
import NixScope.Syntax.Quoted

namespace NixScope.Syntax

namespace Quoted

theorem encodeChar_cases (c : Char) : (∃ d, encodeChar c = ['\\', d] ∧ escaped d = c) ∨
    encodeChar c = [c] ∧ c ≠ '"' ∧ c ≠ '\\' ∧ c ≠ '$' := by
  unfold encodeChar
  split
  case h_7 => exact .inr ⟨rfl, by assumption, by assumption, by assumption⟩
  all_goals exact .inl ⟨_, rfl, rfl⟩

theorem decode_encodeChar (c : Char) (cs : List Char) :
    decode (encodeChar c ++ cs) = c :: decode cs := by
  obtain ⟨d, he, hd⟩ | ⟨he, -, hc, -⟩ := encodeChar_cases c
  · rw [he, ← hd]
    rfl
  · rw [he, List.singleton_append, decode]
    rintro d ds rfl
    simp at hc

theorem decode_encode (cs : List Char) : decode (encode cs) = cs := by
  induction cs with
  | nil => rfl
  | cons c cs ih => rw [encode, List.flatMap_cons, decode_encodeChar, ← encode, ih]

theorem encode_eq_nil {cs : List Char} (h : encode cs = []) : cs = [] := by
  rw [← decode_encode cs, h]
  rfl

end Quoted

namespace Scan

/-- No slash stands behind the path characters ahead, and no URI goes on behind the colon after the
characters of a scheme ahead. -/
structure Calm (cs : List Char) : Prop where
  path : (cs.dropWhile isPathChar).head? ≠ some '/'
  uri : ∀ us, cs.dropWhile isSchemeChar = ':' :: us → us.takeWhile isUriChar = []

section

variable {c : Char} {cs : List Char}

theorem take_takeWhile (f : Char → Bool) (cs : List Char) :
    cs.take (cs.takeWhile f).length = cs.takeWhile f := by
  induction cs with
  | nil => rfl
  | cons c cs ih => by_cases hc : f c = true <;> simp [hc, ih]

theorem drop_takeWhile (f : Char → Bool) (cs : List Char) :
    cs.drop (cs.takeWhile f).length = cs.dropWhile f := by
  induction cs with
  | nil => rfl
  | cons c cs ih => by_cases hc : f c = true <;> simp [hc, ih]

theorem isPathChar_of_isSchemeChar (h : isSchemeChar c = true) : isPathChar c = true := by
  simp only [isSchemeChar, isPathChar, Bool.or_eq_true, beq_iff_eq] at h ⊢
  grind

theorem calm_nil : Calm [] := ⟨by simp, by simp⟩

theorem Calm.cons (h : Calm cs) (hs : c ≠ '/') (hc : c ≠ ':') : Calm (c :: cs) := by
  constructor
  · rw [List.dropWhile_cons]
    split
    · exact h.path
    · simpa using hs
  · intro us hu
    rw [List.dropWhile_cons] at hu
    split at hu
    · exact h.uri us hu
    · exact absurd (List.cons.inj hu).1 hc

theorem calm_of_stop (h : isPathChar c = false) (hs : c ≠ '/') (hc : c ≠ ':') :
    Calm (c :: cs) := by
  have hn : isSchemeChar c = false := by
    rw [Bool.eq_false_iff]
    intro hn
    simp [isPathChar_of_isSchemeChar hn] at h
  constructor
  · simpa [List.dropWhile_cons, h] using hs
  · intro us hu
    rw [List.dropWhile_cons, hn] at hu
    exact absurd (List.cons.inj hu).1 hc

theorem calm_colon (cs : List Char) : Calm (':' :: ' ' :: cs) := by
  constructor
  · simp [isPathChar]
  · intro us hu
    have hn : isSchemeChar ':' = false := by decide
    rw [List.dropWhile_cons, hn] at hu
    cases hu
    exact List.takeWhile_cons_of_neg (by decide)

theorem Calm.append {w : List Char} (h : Calm cs) (hw : ∀ c ∈ w, c ≠ '/' ∧ c ≠ ':') :
    Calm (w ++ cs) := by
  induction w with
  | nil => exact h
  | cons c w ih =>
    obtain ⟨⟨hs, hc⟩, hw⟩ := List.forall_mem_cons.mp hw
    exact (ih hw).cons hs hc

theorem segments_eq_of_calm (h : (cs.dropWhile isPathChar).head? ≠ some '/') :
    segments cs = (cs.takeWhile isPathChar).length := by
  fun_induction segments cs with
  | case1 => rfl
  | case2 c hc => simp [hc]
  | case3 c hc => simp [hc]
  | case4 c d cs hc ih =>
    by_cases hp : isPathChar c = true
    · rw [List.dropWhile_cons_of_pos hp] at h
      rw [List.takeWhile_cons_of_pos hp, ih h, List.length_cons]
    · rw [List.dropWhile_cons_of_neg hp] at h
      simp_all
  | case5 c d cs hc =>
    rw [Bool.or_eq_true, not_or] at hc
    rw [List.takeWhile_cons_of_neg hc.1, List.length_nil]

variable (h : Calm (c :: cs)) (hh : c ≠ '~')

include h hh

theorem pathStem_of_calm : pathStem (c :: cs) = ((c :: cs).takeWhile isPathChar).length := by
  rw [pathStem_other hh, segments_eq_of_calm h.path]

theorem slash_not_mem_stem : '/' ∉ (c :: cs).take (pathStem (c :: cs)) := by
  rw [pathStem_of_calm h hh, take_takeWhile]
  intro hm
  have hp := List.all_eq_true.mp List.all_takeWhile _ hm
  simp [isPathChar] at hp

theorem path?_of_calm : path? (c :: cs) = none := by
  rw [path?]
  exact if_neg (by simpa using slash_not_mem_stem h hh)

theorem pathStart?_of_calm : pathStart? (c :: cs) = none := by
  have hd : ['/'].isPrefixOf ((c :: cs).drop (pathStem (c :: cs))) = false := by
    rw [Bool.eq_false_iff]
    intro hp
    obtain ⟨us, hu⟩ := List.isPrefixOf_iff_prefix.mp hp
    rw [pathStem_of_calm h hh, drop_takeWhile] at hu
    apply h.path
    rw [← hu]
    rfl
  rw [pathStart?, hd]
  have hn := slash_not_mem_stem h hh
  simp only [Bool.false_eq_true, if_false]
  exact if_neg (by simpa using fun hm => absurd hm hn)

omit hh in
theorem uri?_of_calm : uri? (c :: cs) = none := by
  rw [Option.eq_none_iff_forall_ne_some]
  intro n hn
  obtain ⟨-, hc, hb, -⟩ := uri?_eq_some.mp hn
  obtain ⟨us, hu⟩ := List.isPrefixOf_iff_prefix.mp hc
  have hd : (c :: cs).drop (schemeLength (c :: cs)) = (c :: cs).dropWhile isSchemeChar :=
    drop_takeWhile isSchemeChar (c :: cs)
  have hbody := h.uri us (hd.symm.trans hu.symm)
  have htail : (c :: cs).drop (schemeLength (c :: cs) + 1) = us := by
    rw [← List.drop_drop, ← hu]
    rfl
  rw [uriBodyLength, htail, hbody] at hb
  exact Nat.lt_irrefl _ hb

theorem code_of_calm (hl : c ≠ '<') : code c cs = plain c cs := by
  have hs : searchPath? (c :: cs) = none := by
    rw [Option.eq_none_iff_forall_ne_some]
    intro n hn
    obtain ⟨cs', he, -⟩ := searchPath?_eq_some.mp hn
    exact hl (List.cons.inj he).1
  exact code_plain hs (pathStart?_of_calm h hh) (path?_of_calm h hh) (uri?_of_calm h)

end

def isWord : List Char → Bool
  | [] => false
  | c :: cs => isIdentStart c && cs.all isIdentRest

theorem isIdentRest_of_isIdentStart {c : Char} (h : isIdentStart c = true) :
    isIdentRest c = true := by
  simp only [isIdentStart, isIdentRest, Bool.or_eq_true, beq_iff_eq, Char.isAlphanum] at h ⊢
  grind

theorem isIdentRest_of_isWord {w : List Char} (h : isWord w = true) :
    ∀ c ∈ w, isIdentRest c = true := by
  cases w with
  | nil => simp
  | cons c w =>
    rw [isWord, Bool.and_eq_true, List.all_eq_true] at h
    exact List.forall_mem_cons.mpr ⟨isIdentRest_of_isIdentStart h.1, h.2⟩

theorem Calm.word {w cs : List Char} (h : Calm cs) (hw : isWord w = true) : Calm (w ++ cs) := by
  apply h.append
  intro c hc
  have hr := isIdentRest_of_isWord hw c hc
  constructor <;> rintro rfl <;> revert hr <;> decide

theorem plain_word {c : Char} {w cs : List Char} (h : isWord (c :: w) = true)
    (hs : cs.head?.all (!isIdentRest ·) = true) :
    plain c (w ++ cs) = ((keyword? (c :: w)).getD .ident, w.length + 1) := by
  have hstart : isIdentStart c = true := by
    rw [isWord, Bool.and_eq_true] at h
    exact h.1
  have hw : (w ++ cs).takeWhile isIdentRest = w := by
    rw [List.takeWhile_append_of_pos fun d hd =>
      isIdentRest_of_isWord h d (List.mem_cons_of_mem _ hd)]
    cases cs with
    | nil => simp
    | cons d cs => simp_all
  have hblank : isBlank c = false := by
    rw [Bool.eq_false_iff]
    intro hb
    simp only [isBlank, Bool.or_eq_true, beq_iff_eq] at hb
    obtain ((rfl | rfl) | rfl) | rfl := hb <;> revert hstart <;> decide
  have hcomment : ¬ (c == '#') = true := by
    rw [beq_iff_eq]
    rintro rfl
    revert hstart
    decide
  rw [plain, hblank, if_neg (by simp), if_neg hcomment, if_pos hstart, hw]
  rfl

/-- A word that stands before the text ends there, and is part of no path and no URI. -/
structure Clear (cs : List Char) : Prop where
  calm : Calm cs
  word : cs.head?.all (!isIdentRest ·) = true

theorem clear_nil : Clear [] := ⟨calm_nil, rfl⟩

theorem clear_dot {cs : List Char} (h : Calm cs) : Clear ('.' :: cs) :=
  ⟨h.cons (by decide) (by decide), rfl⟩

theorem plain_dot {cs : List Char} (h : cs.head? ≠ some '.') : plain '.' cs = (.dot, 1) := by
  cases cs with
  | nil => rfl
  | cons d cs =>
    have hn : ['.', '.', '.'].isPrefixOf ('.' :: d :: cs) = false := by
      rw [Bool.eq_false_iff]
      intro hp
      obtain ⟨us, hu⟩ := List.isPrefixOf_iff_prefix.mp hp
      cases hu
      exact h rfl
    rw [plain, if_neg (by decide), if_neg (by decide), if_neg (by decide), if_neg (by decide),
      if_neg (by simp), symbol?, symbols, List.find?_cons, hn]
    rfl

end Scan

namespace Token

open Mode

/-- The tokens are read as such where they are written one behind the other, followed by `rest`. -/
def Lexes (ts : List Token) (rest : List Char) : Prop :=
  lexFrom (chars ts ++ rest) 0 [] = ts ++ lexFrom rest 0 []

variable {t : Token} {ts us : List Token} {rest : List Char}

theorem lexes_nil (rest : List Char) : Lexes [] rest := rfl

theorem Lexes.append (h : Lexes ts (chars us ++ rest)) (h' : Lexes us rest) :
    Lexes (ts ++ us) rest := by
  rw [Lexes, chars_append, List.append_assoc, h, h', List.append_assoc]

theorem Lexes.cons (h : Lexes [t] (chars ts ++ rest)) (h' : Lexes ts rest) :
    Lexes (t :: ts) rest :=
  (h.append h' : Lexes ([t] ++ ts) rest)

theorem Lexes.lexFrom_eq (h : Lexes ts []) : lexFrom (chars ts) 0 [] = ts := by
  have he : lexFrom (chars ts ++ []) 0 [] = ts ++ lexFrom [] 0 [] := h
  simpa [lexFrom] using he

theorem lexes_of_code {c : Char} {w : List Char} (ht : t.text.toList = c :: w)
    (hc : Scan.code c (w ++ rest) = (t.kind, w.length + 1)) (ha : afterCode t.kind [] = []) :
    Lexes [t] rest := by
  have hn : next c (w ++ rest) [] = (t.kind, w.length + 1, []) := by
    rw [next_code rfl, hc, ha]
  have hl := lexFrom_of_next ht (congrArg Prod.fst hn) (congrArg (·.2.1) hn)
  rw [hn] at hl
  rw [Lexes, chars_cons, chars, List.flatMap_nil, List.append_nil, ht, List.cons_append, hl]
  rfl

theorem lexes_of_plain {c : Char} {w : List Char} (ht : t.text.toList = c :: w)
    (hcalm : Scan.Calm (c :: (w ++ rest))) (hh : c ≠ '~') (hl : c ≠ '<')
    (hp : Scan.plain c (w ++ rest) = (t.kind, w.length + 1)) (ha : afterCode t.kind [] = []) :
    Lexes [t] rest :=
  lexes_of_code ht (by rw [Scan.code_of_calm hcalm hh hl, hp]) ha

def word (w : String) : Token := ⟨(Scan.keyword? w.toList).getD .ident, w⟩

theorem afterCode_keyword (w : List Char) : afterCode ((Scan.keyword? w).getD .ident) [] = [] := by
  have hall : ∀ k ∈ Scan.wordKinds, afterCode k [] = [] := by decide
  cases h : Scan.keyword? w with
  | none => rfl
  | some k => exact hall k (Scan.mem_wordKinds h)

theorem lexes_word {w : String} (hw : Scan.isWord w.toList = true) (hr : Scan.Clear rest) :
    Lexes [word w] rest := by
  cases h : w.toList with
  | nil => simp [h, Scan.isWord] at hw
  | cons c cs =>
    rw [h] at hw
    have hstart : Scan.isIdentRest c = true := Scan.isIdentRest_of_isWord hw c List.mem_cons_self
    refine lexes_of_plain h (hr.calm.word hw) ?_ ?_ ?_ (afterCode_keyword _)
    · rintro rfl
      revert hstart
      decide
    · rintro rfl
      revert hstart
      decide
    · rw [Scan.plain_word hw hr.word, word, h]

def dot : Token := ⟨.dot, "."⟩

def space : Token := ⟨.whitespace, " "⟩

def leftParen : Token := ⟨.leftParen, "("⟩

def rightParen : Token := ⟨.rightParen, ")"⟩

def leftBrace : Token := ⟨.leftBrace, "\x7b"⟩

def rightBrace : Token := ⟨.rightBrace, "\x7d"⟩

def leftBracket : Token := ⟨.leftBracket, "["⟩

def rightBracket : Token := ⟨.rightBracket, "]"⟩

def semicolon : Token := ⟨.semicolon, ";"⟩

def colon : Token := ⟨.colon, ":"⟩

def comma : Token := ⟨.comma, ","⟩

def assign : Token := ⟨.assign, "="⟩

def question : Token := ⟨.question, "?"⟩

def ellipsis : Token := ⟨.ellipsis, "..."⟩

theorem lexes_dot (hc : Scan.Calm rest) (hs : rest.head? ≠ some '.') : Lexes [dot] rest := by
  refine lexes_of_plain (t := dot) (w := []) rfl (hc.cons (by decide) (by decide)) (by decide)
    (by decide) ?_ rfl
  exact Scan.plain_dot hs

def quoted (cs : List Char) : List Token :=
  [⟨.quote, "\""⟩] ++
    (if cs = [] then [] else [⟨.stringContent, String.ofList (Quoted.encode cs)⟩]) ++
    [⟨.quote, "\""⟩]

theorem stringContent_encodeChar (c : Char) (cs : List Char) :
    Scan.stringContent (Quoted.encodeChar c ++ cs) =
      (Quoted.encodeChar c).length + Scan.stringContent cs := by
  obtain ⟨d, he, -⟩ | ⟨he, hq, hb, hd⟩ := Quoted.encodeChar_cases c
  · rw [he]
    simp [Scan.stringContent, Nat.add_comm]
  · have hc : Scan.stringContent (c :: cs) = Scan.stringContent cs + 1 := by
      rw [Scan.stringContent] <;> simp_all
    rw [he, List.singleton_append, hc, List.length_singleton, Nat.add_comm]

theorem stringContent_encode (cs rest : List Char) :
    Scan.stringContent (Quoted.encode cs ++ '"' :: rest) = (Quoted.encode cs).length := by
  induction cs with
  | nil => rfl
  | cons c cs ih =>
    rw [Quoted.encode, List.flatMap_cons, ← Quoted.encode, List.append_assoc,
      stringContent_encodeChar, ih, List.length_append]

theorem lexFrom_quote (rest : List Char) :
    lexFrom ('"' :: rest) 0 [] = ⟨.quote, "\""⟩ :: lexFrom rest 0 [.string] := by
  have hc : Scan.code '"' rest = (.quote, 1) :=
    Scan.code_of_calm (Scan.calm_of_stop (by decide) (by decide) (by decide)) (by decide) (by decide)
  have hn : next '"' rest [] = (.quote, 1, [.string]) := by
    rw [next_code rfl, hc]
    rfl
  rw [lexFrom_cons, hn]
  rfl

theorem lexFrom_endQuote (rest : List Char) :
    lexFrom ('"' :: rest) 0 [.string] = ⟨.quote, "\""⟩ :: lexFrom rest 0 [] := by
  rw [lexFrom_cons]
  rfl

theorem lexFrom_content {cs : List Char} (hne : cs ≠ []) (rest : List Char) :
    lexFrom (Quoted.encode cs ++ '"' :: rest) 0 [.string] =
      ⟨.stringContent, String.ofList (Quoted.encode cs)⟩ :: lexFrom ('"' :: rest) 0 [.string] := by
  have hlen := stringContent_encode cs rest
  cases he : Quoted.encode cs with
  | nil => exact absurd (Quoted.encode_eq_nil he) hne
  | cons c w =>
    rw [he] at hlen
    have hpos : 0 < Scan.stringContent (c :: (w ++ '"' :: rest)) := by
      rw [← List.cons_append, hlen]
      exact Nat.zero_lt_succ _
    have hq : ¬ (c == '"') = true := by
      rw [beq_iff_eq]
      rintro rfl
      exact absurd hpos (by simp [Scan.stringContent])
    have hd : ¬ ['$', '{'].isPrefixOf (c :: (w ++ '"' :: rest)) = true := by
      intro hd
      rw [stringContent_dollarBrace hd] at hpos
      exact absurd hpos (Nat.lt_irrefl _)
    have hn : next c (w ++ '"' :: rest) [.string] = (.stringContent, w.length + 1, [.string]) := by
      rw [next, if_neg hq, if_neg hd, ← List.cons_append, hlen]
      rfl
    have hl := lexFrom_of_next (t := ⟨.stringContent, String.ofList (c :: w)⟩)
      (String.toList_ofList) (congrArg Prod.fst hn) (congrArg (·.2.1) hn)
    rw [hn] at hl
    exact hl

theorem chars_quoted (cs : List Char) : chars (quoted cs) = '"' :: (Quoted.encode cs ++ ['"']) := by
  rw [quoted]
  split
  · rename_i hnil
    rw [hnil]
    rfl
  · simp [chars]

theorem lexes_quoted (cs rest : List Char) : Lexes (quoted cs) rest := by
  rw [Lexes, chars_quoted, List.cons_append, List.append_assoc, List.singleton_append,
    lexFrom_quote, quoted]
  split
  · rename_i hnil
    rw [hnil]
    exact congrArg _ (lexFrom_endQuote rest)
  · rename_i hne
    rw [lexFrom_content hne, lexFrom_endQuote]
    rfl

def startsSolid : List Token → Bool
  | [] => false
  | t :: _ => t.text.toList.head?.any (!Scan.isBlank ·)

theorem startsSolid_append (h : startsSolid ts = true) (us : List Token) :
    startsSolid (ts ++ us) = true := by
  cases ts with
  | nil => cases h
  | cons t ts => exact h

theorem startsSolid_word {w : String} (hw : Scan.isWord w.toList = true) (ts : List Token) :
    startsSolid (word w :: ts) = true := by
  have hc : (word w).text = w := rfl
  rw [startsSolid, hc]
  cases h : w.toList with
  | nil => simp [h, Scan.isWord] at hw
  | cons c cs =>
    rw [h] at hw
    have hr := Scan.isIdentRest_of_isWord hw c List.mem_cons_self
    rw [List.head?_cons, Option.any_some, Bool.not_eq_true', Bool.eq_false_iff]
    intro hb
    simp only [Scan.isBlank, Bool.or_eq_true, beq_iff_eq] at hb
    obtain ((rfl | rfl) | rfl) | rfl := hb <;> revert hr <;> decide

/-- The tokens are read as such, and neither a path nor a URI begins with them. -/
structure Written (ts : List Token) (rest : List Char) : Prop where
  lexes : Lexes ts rest
  calm : Scan.Calm (chars ts ++ rest)

theorem Written.append (h : Written ts (chars us ++ rest)) (h' : Written us rest) :
    Written (ts ++ us) rest := by
  refine ⟨h.lexes.append h'.lexes, ?_⟩
  rw [chars_append, List.append_assoc]
  exact h.calm

section

variable (h : Written ts rest)

include h

theorem Written.word {w : String} (hw : Scan.isWord w.toList = true)
    (hs : (chars ts ++ rest).head?.all (!Scan.isIdentRest ·) = true) :
    Written (word w :: ts) rest := by
  refine ⟨(lexes_word hw ⟨h.calm, hs⟩).cons h.lexes, ?_⟩
  rw [chars_cons, List.append_assoc]
  exact h.calm.word hw

theorem Written.symbol {c : Char} (ht : t.text.toList = [c]) (hp : Scan.isPathChar c = false)
    (hs : c ∉ ['/', ':', '~', '<']) (hk : Scan.plain c (chars ts ++ rest) = (t.kind, 1))
    (ha : afterCode t.kind [] = []) : Written (t :: ts) rest := by
  simp only [List.mem_cons, List.not_mem_nil, or_false, not_or] at hs
  obtain ⟨hslash, hcolon, hhome, hless⟩ := hs
  have hcalm : Scan.Calm (c :: (chars ts ++ rest)) := Scan.calm_of_stop hp hslash hcolon
  refine ⟨(lexes_of_plain ht hcalm hhome hless hk ha).cons h.lexes, ?_⟩
  rw [chars_cons, ht]
  exact hcalm

theorem Written.leftParen : Written (leftParen :: ts) rest :=
  h.symbol rfl (by decide) (by decide) rfl rfl

theorem Written.rightParen : Written (rightParen :: ts) rest :=
  h.symbol rfl (by decide) (by decide) rfl rfl

theorem Written.leftBrace : Written (leftBrace :: ts) rest :=
  h.symbol rfl (by decide) (by decide) rfl rfl

theorem Written.rightBrace : Written (rightBrace :: ts) rest :=
  h.symbol rfl (by decide) (by decide) rfl rfl

theorem Written.comma : Written (comma :: ts) rest :=
  h.symbol rfl (by decide) (by decide) rfl rfl

theorem Written.semicolon : Written (semicolon :: ts) rest :=
  h.symbol rfl (by decide) (by decide) rfl rfl

theorem Written.blanks {w : List Char} (ht : t.text.toList = ' ' :: w)
    (hw : ∀ c ∈ w, Scan.isBlank c = true) (hk : t.kind = .whitespace)
    (hs : startsSolid ts = true) : Written (t :: ts) rest := by
  have hcalm : Scan.Calm (' ' :: (w ++ (chars ts ++ rest))) :=
    Scan.calm_of_stop (by decide) (by decide) (by decide)
  have hn : (chars ts ++ rest).takeWhile Scan.isBlank = [] := by
    cases ts with
    | nil => cases hs
    | cons u us =>
      obtain ⟨c, hc, hb⟩ := (Option.any_eq_true _ _).mp hs
      obtain ⟨cs, hcs⟩ := List.head?_eq_some_iff.mp hc
      rw [chars_cons, hcs]
      exact List.takeWhile_cons_of_neg (by simpa using hb)
  have hp : Scan.plain ' ' (w ++ (chars ts ++ rest)) = (t.kind, w.length + 1) := by
    rw [Scan.plain, if_pos (by decide), List.takeWhile_append_of_pos hw, hn, List.append_nil, hk]
  have ha : afterCode t.kind [] = [] := by
    rw [hk]
    rfl
  refine ⟨(lexes_of_plain ht hcalm (by decide) (by decide) hp ha).cons h.lexes, ?_⟩
  rw [chars_cons, ht, List.append_assoc]
  exact hcalm

theorem Written.space (hs : startsSolid ts = true) : Written (space :: ts) rest :=
  h.blanks rfl (by simp) rfl hs

theorem Written.colon {cs : List Char} (hs : chars ts ++ rest = ' ' :: cs) :
    Written (colon :: ts) rest := by
  have hcalm : Scan.Calm (':' :: (chars ts ++ rest)) := by
    rw [hs]
    exact Scan.calm_colon cs
  exact ⟨(lexes_of_plain (t := Token.colon) (w := []) rfl hcalm (by decide) (by decide) rfl rfl).cons
    h.lexes, hcalm⟩

theorem Written.ellipsis : Written (ellipsis :: ts) rest := by
  have hcalm : Scan.Calm ('.' :: (['.', '.'] ++ (chars ts ++ rest))) :=
    h.calm.append (w := ['.', '.', '.']) (by simp)
  exact ⟨(lexes_of_plain (t := Token.ellipsis) rfl hcalm (by decide) (by decide) rfl rfl).cons
    h.lexes, hcalm⟩

theorem Written.one
    (hs : (chars ts ++ rest).head?.all (fun c => !c.isDigit && c != '.') = true) :
    Written (⟨.integer, "1"⟩ :: ts) rest := by
  have hcalm : Scan.Calm ('1' :: (chars ts ++ rest)) := h.calm.cons (by decide) (by decide)
  have hn : Scan.number ('1' :: (chars ts ++ rest)) = (.integer, 1) := by
    cases hc : chars ts ++ rest with
    | nil => rfl
    | cons c cs =>
      rw [hc, List.head?_cons, Option.all_some, Bool.and_eq_true, Bool.not_eq_true',
        bne_iff_ne] at hs
      simp [Scan.number, hs.1, Ne.symm hs.2]
  refine ⟨(lexes_of_plain (t := ⟨.integer, "1"⟩) (w := []) rfl hcalm (by decide) (by decide) ?_
    rfl).cons h.lexes, hcalm⟩
  rw [Scan.plain, if_neg (by decide), if_neg (by decide), if_neg (by decide), if_pos (by decide)]
  exact hn

end

theorem written_quoted (cs rest : List Char) : Written (quoted cs) rest := by
  refine ⟨lexes_quoted cs rest, ?_⟩
  rw [chars_quoted]
  exact Scan.calm_of_stop (by decide) (by decide) (by decide)

end Token

end NixScope.Syntax
