import NixScope.Proofs.Lexer

namespace NixScope.Syntax.Scan

variable {xs ys : List Char} {n : Nat}

theorem takeWhile_of_lt {f : Char → Bool} (h : (xs.takeWhile f).length < xs.length) :
    (xs ++ ys).takeWhile f = xs.takeWhile f := by
  rw [List.takeWhile_append, if_neg (Nat.ne_of_lt h)]

theorem takeWhile_prefix_takeWhile (f : Char → Bool) (xs ys : List Char) :
    xs.takeWhile f <+: (xs ++ ys).takeWhile f := by
  rw [List.takeWhile_append]
  split
  · have hp : xs.takeWhile f <+: xs := List.takeWhile_prefix f
    exact hp.trans (List.prefix_append xs _)
  · exact List.prefix_rfl

theorem takeWhile_mono (f : Char → Bool) (xs ys : List Char) :
    (xs.takeWhile f).length ≤ ((xs ++ ys).takeWhile f).length :=
  (takeWhile_prefix_takeWhile f xs ys).length_le

theorem takeWhile_cut {f : Char → Bool} (h : ((xs ++ ys).takeWhile f).length ≤ xs.length) :
    xs.takeWhile f = (xs ++ ys).takeWhile f := by
  by_cases hl : (xs.takeWhile f).length < xs.length
  · exact (takeWhile_of_lt hl).symm
  · exact (takeWhile_prefix_takeWhile f xs ys).eq_of_length_le (by omega)

theorem isPrefixOf_append {ps : List Char} (h : ps.isPrefixOf xs) : ps.isPrefixOf (xs ++ ys) := by
  rw [List.isPrefixOf_iff_prefix] at h ⊢
  exact h.trans (List.prefix_append xs ys)

theorem isPrefixOf_cut {ps : List Char} (h : ps.isPrefixOf (xs ++ ys))
    (hl : ps.length ≤ xs.length) : ps.isPrefixOf xs := by
  rw [List.isPrefixOf_iff_prefix] at h ⊢
  exact List.prefix_of_prefix_length_le h (List.prefix_append xs ys) hl

theorem segments_mono (xs ys : List Char) : segments xs ≤ segments (xs ++ ys) := by
  fun_induction segments xs with
  | case1 => simp
  | case2 c hc => cases ys <;> simp [segments, hc]
  | case3 c hc => simp
  | case4 c d cs hc ih => simpa [segments, hc] using ih
  | case5 c d cs hc => simp

/-- Segments that end before the last character but one end there whatever follows. -/
theorem segments_of_lt (h : segments xs + 1 < xs.length) : segments (xs ++ ys) = segments xs := by
  fun_induction segments xs with
  | case1 => simp at h
  | case2 c hc => simp at h
  | case3 c hc => simp at h
  | case4 c d cs hc ih => simpa [segments, hc] using ih (by simpa using h)
  | case5 c d cs hc => simp [segments, hc]

theorem segments_cut (h : segments (xs ++ ys) ≤ xs.length) :
    segments xs = segments (xs ++ ys) := by
  fun_induction segments xs with
  | case1 => exact (Nat.le_zero.mp h).symm
  | case2 c hc =>
    cases ys with
    | nil => simp [segments, hc]
    | cons d ys => simp_all [segments]
  | case3 c hc =>
    cases ys with
    | nil => simp [segments, hc]
    | cons d ys =>
      by_cases hd : isPathChar d <;> by_cases hs : c == '/' <;> cases ys <;> simp_all [segments]
  | case4 c d cs hc ih => simpa [segments, hc] using ih (by simpa [segments, hc] using h)
  | case5 c d cs hc => simp [segments, hc]

theorem pathStem_home (cs : List Char) :
    pathStem ('~' :: cs) = (if ['/'].isPrefixOf cs then segments cs else 0) + 1 := by
  cases cs with
  | nil => simp [pathStem]
  | cons d cs =>
    by_cases hd : d = '/'
    · simp [pathStem, hd]
    · have hd' : '/' ≠ d := fun h => hd h.symm
      simp [pathStem, hd, hd']

theorem pathStem_other {c : Char} (hc : c ≠ '~') (cs : List Char) :
    pathStem (c :: cs) = segments (c :: cs) := by
  simp [pathStem, hc]

theorem pathStem_mono (xs ys : List Char) : pathStem xs ≤ pathStem (xs ++ ys) := by
  cases xs with
  | nil => simp [pathStem, segments]
  | cons c xs =>
    by_cases hc : c = '~'
    · subst hc
      rw [List.cons_append, pathStem_home, pathStem_home]
      by_cases hd : ['/'].isPrefixOf xs
      · rw [if_pos hd, if_pos (isPrefixOf_append hd)]
        exact Nat.succ_le_succ (segments_mono xs ys)
      · rw [if_neg hd]
        exact Nat.succ_le_succ (Nat.zero_le _)
    · rw [List.cons_append, pathStem_other hc, pathStem_other hc]
      exact segments_mono (c :: xs) ys

theorem pathStem_cut (h : pathStem (xs ++ ys) ≤ xs.length) :
    pathStem xs = pathStem (xs ++ ys) := by
  cases xs with
  | nil => exact (Nat.le_zero.mp h).symm
  | cons c xs =>
    by_cases hc : c = '~'
    · subst hc
      rw [List.cons_append, pathStem_home] at h ⊢
      rw [pathStem_home]
      by_cases hd : ['/'].isPrefixOf (xs ++ ys)
      · rw [if_pos hd, List.length_cons, Nat.add_le_add_iff_right] at h
        rw [if_pos hd]
        have hs := segments_cut h
        by_cases hd' : ['/'].isPrefixOf xs
        · rw [if_pos hd', hs]
        · cases xs with
          | nil => rw [if_neg hd', ← hs, segments]
          | cons d xs => exact absurd (isPrefixOf_cut hd (by simp)) hd'
      · rw [if_neg hd, if_neg fun hd' => hd (isPrefixOf_append hd')]
    · rw [List.cons_append, pathStem_other hc] at h ⊢
      rw [pathStem_other hc]
      exact @segments_cut (c :: xs) ys h

theorem pathStem_of_lt (h : pathStem xs + 1 < xs.length) :
    pathStem (xs ++ ys) = pathStem xs := by
  cases xs with
  | nil => simp at h
  | cons c xs =>
    by_cases hc : c = '~'
    · subst hc
      rw [pathStem_home] at h
      rw [List.cons_append, pathStem_home, pathStem_home]
      by_cases hd : ['/'].isPrefixOf xs
      · rw [if_pos hd, List.length_cons] at h
        rw [if_pos hd, if_pos (isPrefixOf_append hd), segments_of_lt (by omega)]
      · rw [if_neg hd, List.length_cons] at h
        rw [if_neg hd, if_neg fun hd' => hd (isPrefixOf_cut hd' (by simp; omega))]
    · rw [pathStem_other hc] at h
      rw [List.cons_append, pathStem_other hc, pathStem_other hc]
      exact @segments_of_lt (c :: xs) ys h

theorem mem_take_append {c : Char} {m : Nat} (h : c ∈ xs.take m) (hl : m ≤ n) :
    c ∈ (xs ++ ys).take n := by
  have hp : xs.take m <+: (xs ++ ys).take n := by
    rw [List.prefix_take_iff]
    exact ⟨(List.take_prefix m xs).trans (List.prefix_append xs ys), by simp; omega⟩
  exact hp.subset h

theorem drop_append_of_le (hl : n ≤ xs.length) : (xs ++ ys).drop n = xs.drop n ++ ys :=
  List.drop_append_of_le_length hl

theorem path?_mono (h : path? (xs ++ ys) = none) : path? xs = none := by
  simp only [path?, ite_eq_right_iff, reduceCtorEq, imp_false, List.contains_iff_mem] at h ⊢
  exact fun hc => h (mem_take_append hc (pathStem_mono xs ys))

theorem path?_cut (h : path? (xs ++ ys) = some n) (hl : n ≤ xs.length) : path? xs = some n := by
  obtain ⟨hc, hn⟩ := Option.ite_none_right_eq_some.mp h
  cases hn
  rw [List.take_append_of_le_length hl] at hc
  rw [path?, pathStem_cut hl, if_pos hc]

theorem pathStartEnd_of_lt (h : pathStem xs + 1 < xs.length) :
    pathStartEnd (xs ++ ys) = pathStartEnd xs := by
  have hd : ['/'].isPrefixOf ((xs ++ ys).drop (pathStem xs)) =
      ['/'].isPrefixOf (xs.drop (pathStem xs)) := by
    rw [drop_append_of_le (by omega), Bool.eq_iff_iff]
    exact ⟨fun hp => isPrefixOf_cut hp (by simp; omega), isPrefixOf_append⟩
  rw [pathStartEnd, pathStartEnd, pathStem_of_lt h, hd]

theorem pathStart?_append (h : pathStart? xs = some n) : pathStart? (xs ++ ys) = some n := by
  obtain ⟨rfl, hc, hd⟩ := pathStart?_eq_some.mp h
  have hs := pathStem_le_pathStartEnd xs
  have hl := isPrefixOf_length_le hd
  rw [List.length_drop] at hl
  simp only [List.length_cons, List.length_nil] at hl
  refine pathStart?_eq_some.mpr ⟨pathStartEnd_of_lt (by omega), mem_take_append hc (Nat.le_refl _), ?_⟩
  rw [drop_append_of_le (by omega)]
  exact isPrefixOf_append hd

theorem pathStart?_mono (h : pathStart? (xs ++ ys) = none) : pathStart? xs = none := by
  rw [Option.eq_none_iff_forall_ne_some] at h ⊢
  exact fun n hn => h n (pathStart?_append hn)

theorem pathStart?_cut (h : pathStart? (xs ++ ys) = some n)
    (hd : ['$', '{'].isPrefixOf (xs.drop n)) : pathStart? xs = some n := by
  obtain ⟨hn, hc, -⟩ := pathStart?_eq_some.mp h
  have hl := isPrefixOf_length_le hd
  rw [List.length_drop] at hl
  simp only [List.length_cons, List.length_nil] at hl
  have hs := pathStem_le_pathStartEnd (xs ++ ys)
  have hstem : pathStem xs = pathStem (xs ++ ys) := pathStem_cut (by omega)
  rw [pathStartEnd_of_lt (by omega)] at hn
  rw [List.take_append_of_le_length (by omega)] at hc
  exact pathStart?_eq_some.mpr ⟨hn, hc, hd⟩

theorem searchPath?_append (h : searchPath? xs = some n) : searchPath? (xs ++ ys) = some n := by
  obtain ⟨cs, rfl, hpos, hd, rfl⟩ := searchPath?_eq_some.mp h
  have hl := lt_of_isPrefixOf_drop hd
  refine searchPath?_eq_some.mpr ⟨cs ++ ys, rfl, ?_⟩
  rw [takeWhile_of_lt hl, drop_append_of_le (Nat.le_of_lt hl)]
  exact ⟨hpos, isPrefixOf_append hd, rfl⟩

theorem searchPath?_mono (h : searchPath? (xs ++ ys) = none) : searchPath? xs = none := by
  rw [Option.eq_none_iff_forall_ne_some] at h ⊢
  exact fun n hn => h n (searchPath?_append hn)

theorem searchPath?_cut (h : searchPath? (xs ++ ys) = some n) (hl : n ≤ xs.length) :
    searchPath? xs = some n := by
  cases xs with
  | nil => exact absurd (searchPath?_fits h).1 (by simpa using hl)
  | cons c cs =>
    rw [List.cons_append] at h
    obtain ⟨zs, he, hpos, hd, rfl⟩ := searchPath?_eq_some.mp h
    obtain ⟨rfl, rfl⟩ := List.cons.inj he
    rw [List.length_cons] at hl
    have ht : cs.takeWhile isPathBody = _ := @takeWhile_cut cs ys _ (by omega)
    rw [← ht] at hl hpos hd ⊢
    rw [drop_append_of_le (by omega)] at hd
    exact searchPath?_eq_some.mpr ⟨cs, rfl, hpos, isPrefixOf_cut hd (by simp; omega), rfl⟩

theorem schemeLength_of_colon (h : [':'].isPrefixOf (xs.drop (schemeLength xs))) :
    schemeLength (xs ++ ys) = schemeLength xs := by
  rw [schemeLength, takeWhile_of_lt (lt_of_isPrefixOf_drop h)]
  rfl

theorem uri?_mono (h : uri? (xs ++ ys) = none) : uri? xs = none := by
  rw [Option.eq_none_iff_forall_ne_some] at h ⊢
  intro n hn
  obtain ⟨ha, hc, hb, -⟩ := uri?_eq_some.mp hn
  have hs : schemeLength (xs ++ ys) = schemeLength xs := schemeLength_of_colon hc
  have hl := lt_of_isPrefixOf_drop hc
  refine h _ (uri?_eq_some.mpr ⟨?_, ?_, ?_, rfl⟩)
  · cases xs with
    | nil => cases ha
    | cons c xs => exact ha
  · rw [hs, drop_append_of_le (by omega)]
    exact isPrefixOf_append hc
  · rw [uriBodyLength, hs, drop_append_of_le (by omega)]
    exact Nat.lt_of_lt_of_le hb (takeWhile_mono _ _ _)

theorem uri?_cut (h : uri? (xs ++ ys) = some n) (hl : n ≤ xs.length) : uri? xs = some n := by
  obtain ⟨ha, hc, hb, rfl⟩ := uri?_eq_some.mp h
  have hs : schemeLength (xs ++ ys) = schemeLength xs := by
    rw [schemeLength, ← takeWhile_cut]
    · rfl
    · change schemeLength (xs ++ ys) ≤ xs.length
      omega
  rw [hs] at hl hc ⊢
  have hbody : uriBodyLength (xs ++ ys) = uriBodyLength xs := by
    rw [uriBodyLength, hs, drop_append_of_le (by omega)] at hl ⊢
    rw [← takeWhile_cut]
    · rfl
    · rw [List.length_drop]
      omega
  rw [hbody] at hb ⊢
  rw [drop_append_of_le (by omega)] at hc
  refine uri?_eq_some.mpr ⟨?_, isPrefixOf_cut hc (by simp; omega), hb, rfl⟩
  cases xs with
  | nil => simp at hl
  | cons c xs => exact ha

theorem symbol?_cut {t : Kind × Nat} (h : symbol? (xs ++ ys) = some t) (hl : t.2 ≤ xs.length) :
    symbol? xs = some t := by
  obtain ⟨s, hs, rfl⟩ := Option.map_eq_some_iff.mp h
  obtain ⟨hp, as, bs, he, hn⟩ := List.find?_eq_some_iff_append.mp hs
  have hf : symbols.find? (fun s => s.1.isPrefixOf xs) = some s := by
    refine List.find?_eq_some_iff_append.mpr ⟨isPrefixOf_cut hp hl, as, bs, he, fun a ha => ?_⟩
    have hna := hn a ha
    rw [Bool.not_eq_true', ← Bool.not_eq_true] at hna ⊢
    exact fun hp => hna (isPrefixOf_append hp)
  rw [symbol?, hf]
  rfl

def digitsFrom (n : Nat) (cs : List Char) : Nat := ((cs.drop n).takeWhile Char.isDigit).length

theorem digitsFrom_mono (n : Nat) (xs ys : List Char) :
    digitsFrom n xs ≤ digitsFrom n (xs ++ ys) := by
  rw [digitsFrom, digitsFrom, List.drop_append]
  exact takeWhile_mono _ _ _

theorem digitsFrom_cut (h : n + digitsFrom n (xs ++ ys) ≤ xs.length) :
    digitsFrom n xs = digitsFrom n (xs ++ ys) := by
  rw [digitsFrom, drop_append_of_le (by omega)] at h
  rw [digitsFrom, digitsFrom, drop_append_of_le (by omega), takeWhile_cut]
  rw [List.length_drop]
  omega

def signLength (cs : List Char) : Nat := if ['+'].isPrefixOf cs || ['-'].isPrefixOf cs then 1 else 0

theorem exponent_cons (e : Char) (cs : List Char) : exponent (e :: cs) =
    if (e == 'e' || e == 'E') && 0 < digitsFrom (signLength cs) cs then
      1 + signLength cs + digitsFrom (signLength cs) cs
    else 0 := rfl

theorem exponent_cut (h : exponent (xs ++ ys) ≤ xs.length) :
    exponent xs = exponent (xs ++ ys) := by
  cases xs with
  | nil => exact (Nat.le_zero.mp h).symm
  | cons e xs =>
    rw [List.cons_append, exponent_cons] at h ⊢
    rw [exponent_cons]
    by_cases he : e == 'e' || e == 'E'
    · simp only [he, Bool.true_and, decide_eq_true_eq, List.length_cons] at h ⊢
      by_cases hd : 0 < digitsFrom (signLength (xs ++ ys)) (xs ++ ys)
      · rw [if_pos hd] at h ⊢
        cases xs with
        | nil =>
          rw [List.length_nil] at h
          omega
        | cons c xs =>
          have hs : signLength (c :: xs ++ ys) = signLength (c :: xs) := by simp [signLength]
          rw [hs] at h hd ⊢
          rw [@digitsFrom_cut (c :: xs) ys _ (by omega), if_pos hd]
      · rw [if_neg hd, if_neg]
        cases xs with
        | nil => simp [digitsFrom]
        | cons c xs =>
          have hs : signLength (c :: xs ++ ys) = signLength (c :: xs) := by simp [signLength]
          have hm := digitsFrom_mono (signLength (c :: xs)) (c :: xs) ys
          rw [hs] at hd
          omega
    · simp [he]

theorem number_eq (cs : List Char) : number cs =
    if ['.'].isPrefixOf (cs.drop (digitsFrom 0 cs)) && 0 < digitsFrom (digitsFrom 0 cs + 1) cs then
      (.float, digitsFrom 0 cs + 1 + digitsFrom (digitsFrom 0 cs + 1) cs +
        exponent (cs.drop (digitsFrom 0 cs + 1 + digitsFrom (digitsFrom 0 cs + 1) cs)))
    else (.integer, digitsFrom 0 cs) := rfl

theorem number_cut (h : (number (xs ++ ys)).2 ≤ xs.length) : number xs = number (xs ++ ys) := by
  rw [number_eq (xs ++ ys)] at h ⊢
  have hw : digitsFrom 0 xs = digitsFrom 0 (xs ++ ys) := by
    apply digitsFrom_cut
    split at h
    · dsimp only at h
      omega
    · dsimp only at h
      omega
  have hwl : digitsFrom 0 xs ≤ xs.length := by
    rw [digitsFrom]
    exact takeWhile_le _ _
  rw [← hw] at h ⊢
  rw [number_eq]
  by_cases hf : ['.'].isPrefixOf ((xs ++ ys).drop (digitsFrom 0 xs)) &&
      0 < digitsFrom (digitsFrom 0 xs + 1) (xs ++ ys)
  · rw [if_pos hf] at h ⊢
    dsimp only at h
    have hd : digitsFrom (digitsFrom 0 xs + 1) xs = _ := @digitsFrom_cut xs ys _ (by omega)
    rw [Bool.and_eq_true, drop_append_of_le hwl] at hf
    have hp := isPrefixOf_cut hf.1 (by simp; omega)
    rw [← hd] at h hf ⊢
    rw [drop_append_of_le (by omega)] at h ⊢
    rw [if_pos (by rw [hp, hf.2]; rfl), exponent_cut]
    rw [List.length_drop]
    omega
  · rw [if_neg hf, if_neg]
    have hm := digitsFrom_mono (digitsFrom 0 xs + 1) xs ys
    rw [Bool.and_eq_true, decide_eq_true_eq] at hf ⊢
    rw [drop_append_of_le hwl] at hf
    exact fun hx => hf ⟨isPrefixOf_append hx.1, by omega⟩

theorem plain_cut {c : Char} (hl : (plain c (xs ++ ys)).2 ≤ xs.length + 1)
    (he : (plain c (xs ++ ys)).1 ≠ .error) : plain c xs = plain c (xs ++ ys) := by
  by_cases hb : isBlank c
  · simp only [plain, if_pos hb, Nat.add_le_add_iff_right] at hl ⊢
    rw [takeWhile_cut hl]
  by_cases hc : c == '#'
  · simp only [plain, if_neg hb, if_pos hc, Nat.add_le_add_iff_right] at hl ⊢
    rw [takeWhile_cut hl]
  by_cases hi : isIdentStart c
  · simp only [plain, if_neg hb, if_neg hc, if_pos hi, List.length_cons,
      Nat.add_le_add_iff_right] at hl ⊢
    rw [takeWhile_cut hl]
  by_cases hd : c.isDigit
  · simp only [plain, if_neg hb, if_neg hc, if_neg hi, if_pos hd] at hl ⊢
    exact @number_cut (c :: xs) ys hl
  by_cases hs : c == '/' && ['*'].isPrefixOf (xs ++ ys)
  · simp only [plain, if_neg hb, if_neg hc, if_neg hi, if_neg hd, if_pos hs, ne_eq,
      not_true_eq_false] at he
  · have hs' : ¬(c == '/' && ['*'].isPrefixOf xs) := by
      rw [Bool.and_eq_true] at hs ⊢
      exact fun hx => hs ⟨hx.1, isPrefixOf_append hx.2⟩
    simp only [plain, if_neg hb, if_neg hc, if_neg hi, if_neg hd, if_neg hs, if_neg hs'] at hl he ⊢
    cases ht : symbol? (c :: (xs ++ ys)) with
    | none => simp [ht] at he
    | some t =>
      rw [ht] at hl
      rw [@symbol?_cut (c :: xs) ys t ht hl]

section

variable {c : Char} {cs : List Char}

theorem code_searchPath (h : searchPath? (c :: cs) = some n) : code c cs = (.searchPath, n) := by
  simp [code, h]

variable (hs : searchPath? (c :: cs) = none)

include hs

theorem code_pathStart (h : pathStart? (c :: cs) = some n) : code c cs = (.pathFragment, n) := by
  simp [code, hs, h]

variable (hp : pathStart? (c :: cs) = none)

include hp

theorem code_path (h : path? (c :: cs) = some n) : code c cs = (.path, n) := by
  simp [code, hs, hp, h]

theorem code_uri (hn : path? (c :: cs) = none) (h : uri? (c :: cs) = some n) :
    code c cs = (.uri, n) := by
  simp [code, hs, hp, hn, h]

theorem code_plain (hn : path? (c :: cs) = none) (h : uri? (c :: cs) = none) :
    code c cs = plain c cs := by
  simp [code, hs, hp, hn, h]

end

theorem code_cases (c : Char) (cs : List Char) : (∃ n, code c cs = (.searchPath, n)) ∨
    (∃ n, pathStart? (c :: cs) = some n ∧ code c cs = (.pathFragment, n)) ∨
    (∃ n, code c cs = (.path, n)) ∨ (∃ n, code c cs = (.uri, n)) ∨ code c cs = plain c cs := by
  cases hs : searchPath? (c :: cs) with
  | some n => exact .inl ⟨n, code_searchPath hs⟩
  | none =>
    cases hp : pathStart? (c :: cs) with
    | some n => exact .inr (.inl ⟨n, rfl, code_pathStart hs hp⟩)
    | none =>
      cases hn : path? (c :: cs) with
      | some n => exact .inr (.inr (.inl ⟨n, code_path hs hp hn⟩))
      | none =>
        cases hu : uri? (c :: cs) with
        | some n => exact .inr (.inr (.inr (.inl ⟨n, code_uri hs hp hn hu⟩)))
        | none => exact .inr (.inr (.inr (.inr (code_plain hs hp hn hu))))

/-- A token of ordinary code is the same where the text ends behind it. The start of a path has to
be followed by an interpolation, though. -/
theorem code_cut {c : Char} (hl : (code c (xs ++ ys)).2 ≤ xs.length + 1)
    (he : (code c (xs ++ ys)).1 ≠ .error)
    (hf : (code c (xs ++ ys)).1 = .pathFragment →
      ['$', '{'].isPrefixOf ((c :: xs).drop (code c (xs ++ ys)).2)) :
    code c xs = code c (xs ++ ys) := by
  cases hs : searchPath? (c :: (xs ++ ys)) with
  | some n =>
    rw [code_searchPath hs] at hl ⊢
    exact code_searchPath (@searchPath?_cut (c :: xs) ys n hs hl)
  | none =>
    have hs' := @searchPath?_mono (c :: xs) ys hs
    cases hp : pathStart? (c :: (xs ++ ys)) with
    | some n =>
      rw [code_pathStart hs hp] at hf ⊢
      exact code_pathStart hs' (@pathStart?_cut (c :: xs) ys n hp (hf rfl))
    | none =>
      have hp' := @pathStart?_mono (c :: xs) ys hp
      cases hn : path? (c :: (xs ++ ys)) with
      | some n =>
        rw [code_path hs hp hn] at hl ⊢
        exact code_path hs' hp' (@path?_cut (c :: xs) ys n hn hl)
      | none =>
        have hn' := @path?_mono (c :: xs) ys hn
        cases hu : uri? (c :: (xs ++ ys)) with
        | some n =>
          rw [code_uri hs hp hn hu] at hl ⊢
          exact code_uri hs' hp' hn' (@uri?_cut (c :: xs) ys n hu hl)
        | none =>
          have hu' := @uri?_mono (c :: xs) ys hu
          rw [code_plain hs hp hn hu] at hl he ⊢
          rw [code_plain hs' hp' hn' hu', plain_cut hl he]

def wordKinds : List Kind :=
  [.assertKw, .elseKw, .ifKw, .inKw, .inheritKw, .letKw, .orKw, .recKw, .thenKw, .withKw]

theorem mem_wordKinds {word : List Char} {k : Kind} (h : keyword? word = some k) :
    k ∈ wordKinds := by
  unfold keyword? at h
  split at h <;> cases h <;> decide

theorem symbol_of_plain {c : Char} {cs : List Char} {k : Kind} (h : (plain c cs).1 = k)
    (hk : k ∉ [.whitespace, .comment, .ident, .integer, .float, .error])
    (hw : ∀ word, keyword? word ≠ some k) :
    ∃ s ∈ symbols, s.2 = k ∧ s.1.isPrefixOf (c :: cs) := by
  revert h
  fun_cases plain c cs with
  | case3 hb hc hi word =>
    rintro rfl
    cases hn : keyword? word with
    | none => simp [hn] at hk
    | some k => exact absurd hn (by simpa [hn] using hw word)
  | case4 hb hc hi hd =>
    rintro rfl
    exact absurd hk (by fun_cases number (c :: cs) <;> simp)
  | case6 hb hc hi hd hs =>
    rintro rfl
    cases ht : symbol? (c :: cs) with
    | none => simp [ht] at hk
    | some t =>
      obtain ⟨s, hs, rfl⟩ := Option.map_eq_some_iff.mp ht
      exact ⟨s, List.mem_of_find?_eq_some hs, rfl, by simpa using List.find?_some hs⟩
  | _ =>
    rintro rfl
    simp at hk

theorem plain_ne_pathFragment (c : Char) (cs : List Char) : (plain c cs).1 ≠ .pathFragment := by
  intro h
  have hw : ∀ word, keyword? word ≠ some .pathFragment := by
    intro word hk
    exact absurd (mem_wordKinds hk) (by decide)
  obtain ⟨s, hs, hk, -⟩ := symbol_of_plain h (by decide) hw
  have hne : ∀ s ∈ symbols, s.2 ≠ .pathFragment := by decide
  exact hne s hs hk

theorem drop_of_pathFragment {c : Char} {cs : List Char} (h : (code c cs).1 = .pathFragment) :
    ['$', '{'].isPrefixOf ((c :: cs).drop (code c cs).2) := by
  obtain ⟨n, he⟩ | ⟨n, hp, he⟩ | ⟨n, he⟩ | ⟨n, he⟩ | he := code_cases c cs
  · simp [he] at h
  · rw [he]
    exact (pathStart?_eq_some.mp hp).2.2
  · simp [he] at h
  · simp [he] at h
  · rw [he] at h
    exact absurd h (plain_ne_pathFragment c cs)

theorem isPrefixOf_of_dollarBrace {c : Char} {cs : List Char} (h : (code c cs).1 = .dollarBrace) :
    ['$', '{'].isPrefixOf (c :: cs) := by
  obtain ⟨n, he⟩ | ⟨n, hp, he⟩ | ⟨n, he⟩ | ⟨n, he⟩ | he := code_cases c cs
  · simp [he] at h
  · simp [he] at h
  · simp [he] at h
  · simp [he] at h
  · have hw : ∀ word, keyword? word ≠ some .dollarBrace := by
      intro word hk
      exact absurd (mem_wordKinds hk) (by decide)
    rw [he] at h
    obtain ⟨s, hm, hk, hp⟩ := symbol_of_plain h (by decide) hw
    have hs : ∀ s ∈ symbols, s.2 = .dollarBrace → s.1 = ['$', '{'] := by decide
    rwa [hs s hm hk] at hp

theorem code_dollarBrace (cs : List Char) : code '$' ('{' :: cs) = (.dollarBrace, 2) := by
  have hs : segments ('$' :: '{' :: cs) = 0 := by
    rw [segments, if_neg (by decide)]
  have hstem : pathStem ('$' :: '{' :: cs) = 0 := by
    rw [pathStem_other (by decide), hs]
  have hp : pathStart? ('$' :: '{' :: cs) = none := by
    rw [Option.eq_none_iff_forall_ne_some]
    intro n hn
    obtain ⟨rfl, hm, -⟩ := pathStart?_eq_some.mp hn
    simp [pathStartEnd, hstem] at hm
  have hn : path? ('$' :: '{' :: cs) = none := by simp [path?, hstem]
  have hu : uri? ('$' :: '{' :: cs) = none := by simp [uri?]
  rw [code_plain rfl hp hn hu]
  rfl

theorem exists_of_append_eq {ps cs : List Char} (h : xs ++ ys = ps ++ cs)
    (hl : ps.length ≤ xs.length) : ∃ us, xs = ps ++ us ∧ us ++ ys = cs := by
  obtain ⟨us, rfl⟩ := List.prefix_of_prefix_length_le ⟨cs, h.symm⟩ (List.prefix_append xs ys) hl
  rw [List.append_assoc, List.append_cancel_left_eq] at h
  exact ⟨us, rfl, h⟩

theorem stringContent_append {zs : List Char} (h : stringContent (xs ++ (ys ++ zs)) = xs.length)
    (hy : stringContent ys = 0) : stringContent (xs ++ ys) = xs.length := by
  generalize hc : xs ++ (ys ++ zs) = cs at h
  fun_induction stringContent cs generalizing xs with
  | case4 cs ih =>
    obtain ⟨us, rfl, rfl⟩ := @exists_of_append_eq xs _ ['$', '$', '{'] cs hc (by simp; omega)
    simpa [stringContent] using ih rfl (by simpa using h)
  | case5 c cs ih =>
    obtain ⟨us, rfl, rfl⟩ := @exists_of_append_eq xs _ ['\\', c] cs hc (by simp; omega)
    simpa [stringContent] using ih rfl (by simpa using h)
  | case6 c cs h1 h2 h3 h4 ih =>
    obtain ⟨us, rfl, rfl⟩ := @exists_of_append_eq xs _ [c] cs hc (by simp; omega)
    have hs := ih rfl (by simpa using h)
    rw [← List.append_assoc] at h2 h3 h4
    rw [List.singleton_append, List.cons_append, stringContent, hs]
    · rfl
    · exact h1
    · exact fun tail hc he => h2 (tail ++ zs) hc (by rw [he]; rfl)
    · exact fun tail hc he => h3 (tail ++ zs) hc (by rw [he]; rfl)
    · exact fun d tail hc he => h4 d (tail ++ zs) hc (by rw [he]; rfl)
  | _ =>
    obtain rfl := List.length_eq_zero_iff.mp h.symm
    exact hy

theorem indentedContent_append {zs : List Char} (h : indentedContent (xs ++ (ys ++ zs)) = xs.length)
    (hy : indentedContent ys = 0) (hn : ys ≠ []) : indentedContent (xs ++ ys) = xs.length := by
  generalize hc : xs ++ (ys ++ zs) = cs at h
  fun_induction indentedContent cs generalizing xs with
  | case2 cs ih =>
    obtain ⟨us, rfl, rfl⟩ := @exists_of_append_eq xs _ ['\'', '\'', '\''] cs hc (by simp; omega)
    simpa [indentedContent] using ih rfl (by simpa using h)
  | case3 cs ih =>
    obtain ⟨us, rfl, rfl⟩ := @exists_of_append_eq xs _ ['\'', '\'', '$'] cs hc (by simp; omega)
    simpa [indentedContent] using ih rfl (by simpa using h)
  | case4 c cs ih =>
    obtain ⟨us, rfl, rfl⟩ :=
      @exists_of_append_eq xs _ ['\'', '\'', '\\', c] cs hc (by simp; omega)
    simpa [indentedContent] using ih rfl (by simpa using h)
  | case5 =>
    have hl := congrArg List.length hc
    have hpos := List.length_pos_iff.mpr hn
    simp only [List.length_append, List.length_cons, List.length_nil] at hl
    omega
  | case8 cs ih =>
    obtain ⟨us, rfl, rfl⟩ := @exists_of_append_eq xs _ ['$', '$', '{'] cs hc (by simp; omega)
    simpa [indentedContent] using ih rfl (by simpa using h)
  | case9 c cs h1 h2 h3 h4 h5 h6 h7 ih =>
    obtain ⟨us, rfl, rfl⟩ := @exists_of_append_eq xs _ [c] cs hc (by simp; omega)
    have hs := ih rfl (by simpa using h)
    rw [← List.append_assoc] at h5 h6 h7
    have hquotes : ∀ tail, c = '\'' → us ++ ys = '\'' :: tail → False :=
      fun tail hc he => h5 (tail ++ zs) hc (by rw [he]; rfl)
    rw [List.singleton_append, List.cons_append, indentedContent, hs]
    · rfl
    · exact fun tail hc => hquotes _ hc
    · exact fun tail hc => hquotes _ hc
    · exact fun d tail hc => hquotes _ hc
    · exact fun hc => hquotes _ hc
    · exact hquotes
    · exact fun tail hc he => h6 (tail ++ zs) hc (by rw [he]; rfl)
    · exact fun tail hc he => h7 (tail ++ zs) hc (by rw [he]; rfl)
  | _ =>
    obtain rfl := List.length_eq_zero_iff.mp h.symm
    exact hy

theorem stringContent_drop (cs : List Char) : stringContent (cs.drop (stringContent cs)) = 0 := by
  fun_induction stringContent cs with
  | case1 => rfl
  | case2 cs => simp [stringContent]
  | case3 cs => simp [stringContent]
  | case4 cs ih => simpa using ih
  | case5 c cs ih => simpa using ih
  | case6 c cs h1 h2 h3 h4 ih => simpa using ih

theorem indentedContent_drop (cs : List Char) :
    indentedContent (cs.drop (indentedContent cs)) = 0 := by
  fun_induction indentedContent cs with
  | _ => simp_all [indentedContent]

theorem indentedContent_eq_zero_cut (h : indentedContent (xs ++ ys) = 0) (hl : 2 ≤ xs.length) :
    indentedContent xs = 0 := by
  generalize hc : xs ++ ys = cs at h
  fun_cases indentedContent cs with
  | case6 cs h1 h2 h3 h4 =>
    obtain ⟨us, rfl, rfl⟩ := @exists_of_append_eq xs ys ['\'', '\''] cs hc (by simpa using hl)
    cases us with
    | nil => rfl
    | cons d us =>
      have hd : d ≠ '\'' ∧ d ≠ '$' ∧ d ≠ '\\' := by
        refine ⟨?_, ?_, ?_⟩ <;> rintro rfl
        · exact h1 _ rfl
        · exact h2 _ rfl
        · cases ht : us ++ ys with
          | nil => exact h4 (by rw [List.cons_append, ht])
          | cons e es => exact h3 e es (by rw [List.cons_append, ht])
      simp [indentedContent, hd]
  | case7 cs =>
    obtain ⟨us, rfl, rfl⟩ := @exists_of_append_eq xs ys ['$', '{'] cs hc (by simpa using hl)
    rfl
  | case1 =>
    obtain ⟨rfl, -⟩ := List.append_eq_nil_iff.mp hc
    rfl
  | _ => simp [indentedContent] at h

theorem stringContent_eq_zero {c : Char} {cs : List Char} (h : stringContent (c :: cs) = 0) :
    c = '"' ∨ ['$', '{'].isPrefixOf (c :: cs) := by
  unfold stringContent at h
  split at h <;> simp_all

/-- Content that ends where the shorter text has something else is the same in it. -/
theorem stringContent_cut (hl : stringContent (xs ++ ys) ≤ xs.length)
    (hz : stringContent (xs.drop (stringContent (xs ++ ys))) = 0) :
    stringContent xs = stringContent (xs ++ ys) := by
  generalize hn : stringContent (xs ++ ys) = n at hl hz
  have ht : (xs.take n).length = n := List.length_take_of_le hl
  rw [← List.take_append_drop n xs, List.append_assoc] at hn
  have ha := stringContent_append (hn.trans ht.symm) hz
  rwa [List.take_append_drop, ht] at ha

theorem indentedContent_cut (hl : indentedContent (xs ++ ys) < xs.length)
    (hz : indentedContent (xs.drop (indentedContent (xs ++ ys))) = 0) :
    indentedContent xs = indentedContent (xs ++ ys) := by
  generalize hn : indentedContent (xs ++ ys) = n at hl hz
  have ht : (xs.take n).length = n := List.length_take_of_le (Nat.le_of_lt hl)
  rw [← List.take_append_drop n xs, List.append_assoc] at hn
  have ha := indentedContent_append (hn.trans ht.symm) hz (by simpa using hl)
  rwa [List.take_append_drop, ht] at ha

end NixScope.Syntax.Scan
