import NixScope.Proofs.Scanning

/-!
The lexer in two states at once. The modes after a token follow from its kind, and which token comes
next depends on little of the modes: whether they read code, a literal or a path. So a part of a
text whose tokens keep two states alike is split the same way in both, and also where the text ends
behind it.
-/

namespace NixScope.Syntax

def Kind.continuesPath (k : Kind) : Bool := k matches dollarBrace | pathFragment

namespace Mode

/-- The text ahead is ordinary code. -/
def isCode : List Mode → Bool
  | [] | .interpolation _ :: _ => true
  | _ => false

/-- The modes after a token of the kind. A path is in code, which goes on when the path ends. -/
def after (k : Kind) : List Mode → List Mode
  | .string :: s =>
    match k with
    | .quote => s
    | .dollarBrace => .interpolation 0 :: .string :: s
    | _ => .string :: s
  | .indentedString :: s =>
    match k with
    | .indentedQuote => s
    | .dollarBrace => .interpolation 0 :: .indentedString :: s
    | _ => .indentedString :: s
  | .path :: s =>
    match k with
    | .dollarBrace => .interpolation 0 :: .path :: s
    | .pathFragment => .path :: s
    | _ => afterCode k s
  | s => afterCode k s

section

variable {c : Char} {cs : List Char} {s : List Mode}

theorem next_code (h : isCode s = true) :
    next c cs s = ((Scan.code c cs).1, (Scan.code c cs).2, afterCode (Scan.code c cs).1 s) := by
  match s, h with
  | [], _ => rfl
  | .interpolation n :: s, _ => rfl

theorem after_code (h : isCode s = true) (k : Kind) : after k s = afterCode k s := by
  match s, h with
  | [], _ => rfl
  | .interpolation n :: s, _ => rfl

theorem code_ne_dollarBrace (h : ¬['$', '{'].isPrefixOf (c :: cs)) :
    (Scan.code c cs).1 ≠ .dollarBrace :=
  fun hk => h (Scan.isPrefixOf_of_dollarBrace hk)

theorem after_path {k : Kind} (hk : k.continuesPath = false) : after k (.path :: s) = afterCode k s := by
  cases k <;> first | rfl | cases hk

theorem next_after (h : ∀ u, s = .path :: u → isCode u = true) :
    (next c cs s).2.2 = after (next c cs s).1 s := by
  match s, h with
  | [], _ => rfl
  | .interpolation n :: s, _ => rfl
  | .string :: s, _ =>
    rw [next]
    split
    · rfl
    split <;> rfl
  | .indentedString :: s, _ =>
    rw [next]
    split
    · rfl
    split <;> rfl
  | .path :: s, h =>
    have hc := h s rfl
    rw [next]
    split
    · rfl
    rename_i hd
    split
    · rfl
    rw [next_code hc]
    have hne := code_ne_dollarBrace hd
    generalize (Scan.code c cs).1 = k at hne
    by_cases hk : k = .pathFragment
    · subst hk
      cases s with
      | nil => rfl
      | cons m s => cases m <;> rfl
    · rw [after_path (by cases k <;> simp_all [Kind.continuesPath])]

theorem next_dollarBrace (h : ['$', '{'].isPrefixOf (c :: cs)) (s : List Mode) :
    (next c cs s).1 = .dollarBrace ∧ (next c cs s).2.1 = 2 := by
  obtain ⟨us, hu⟩ := List.isPrefixOf_iff_prefix.mp h
  obtain ⟨rfl, rfl⟩ := List.cons.inj hu
  have hcode : ∀ s, isCode s = true → (next '$' ('{' :: us) s).1 = .dollarBrace ∧
      (next '$' ('{' :: us) s).2.1 = 2 := by
    intro s hs
    rw [next_code hs, Scan.code_dollarBrace]
    exact ⟨rfl, rfl⟩
  match s with
  | [] => exact hcode [] rfl
  | .interpolation n :: s => exact hcode _ rfl
  | .string :: s => simp [next]
  | .indentedString :: s => simp [next]
  | .path :: s => simp [next]

theorem next_path (hd : ¬['$', '{'].isPrefixOf (c :: cs)) (hc : ¬Scan.isPathBody c) :
    next c cs (.path :: s) = next c cs s := by
  rw [next, if_neg hd, if_neg hc]

end

/-- A token of the kind is read in the same way in both states. Of two paths that end before the
token the second has to end for the same reason as the first. -/
inductive Alike (k : Kind) : List Mode → List Mode → Prop
  | code {s t : List Mode} (hs : isCode s = true) (ht : isCode t = true) : Alike k s t
  | string (s t : List Mode) : Alike k (.string :: s) (.string :: t)
  | indentedString (s t : List Mode) : Alike k (.indentedString :: s) (.indentedString :: t)
  | path {s t : List Mode} (hs : isCode s = true) (ht : isCode t = true) :
      Alike k (.path :: s) (.path :: t)
  | ended {s t : List Mode} (hk : k.continuesPath = false) (hs : isCode s = true)
      (ht : isCode t = true) : Alike k (.path :: s) t

section

variable {k : Kind} {s t : List Mode}

theorem Alike.left (h : Alike k s t) : ∀ u, s = .path :: u → isCode u = true := by
  rintro u rfl
  cases h with
  | code hs ht => cases hs
  | path hs ht => exact hs
  | ended hk hs ht => exact hs

theorem Alike.right (h : Alike k s t) : ∀ u, t = .path :: u → isCode u = true := by
  rintro u rfl
  cases h with
  | code hs ht => cases ht
  | path hs ht => exact ht
  | ended hk hs ht => cases ht

end

section

variable {c : Char} {xs ys : List Char} {s t : List Mode}

/-- The text does not end in a literal. A path does not go on behind it, either. -/
def Closed (ys : List Char) (s : List Mode) : Prop :=
  isCode s = true ∨ (∃ u, s = .path :: u) ∧ ¬['$', '{'].isPrefixOf ys

/-- Behind the token comes another one that ends in the shorter text as well, or else the shorter
text ends with the token and not in a literal. -/
def Settled (c : Char) (xs ys : List Char) (s : List Mode) : Prop :=
  (∃ d zs, (c :: xs).drop (next c (xs ++ ys) s).2.1 = d :: zs ∧
    (next d (zs ++ ys) (next c (xs ++ ys) s).2.2).2.1 ≤ zs.length + 1) ∨
  (next c (xs ++ ys) s).2.1 = xs.length + 1 ∧ Closed ys (next c (xs ++ ys) s).2.2

theorem drop_append {n : Nat} (hl : n ≤ xs.length + 1) :
    (c :: (xs ++ ys)).drop n = (c :: xs).drop n ++ ys :=
  @List.drop_append_of_le_length _ (c :: xs) ys n hl

theorem dollarBrace_cut (h : ['$', '{'].isPrefixOf (c :: (xs ++ ys))) (s : List Mode)
    (hl : (next c (xs ++ ys) s).2.1 ≤ xs.length + 1) : ['$', '{'].isPrefixOf (c :: xs) := by
  rw [(next_dollarBrace h s).2] at hl
  exact @Scan.isPrefixOf_cut (c :: xs) ys _ h hl

theorem not_isPrefixOf_cut (h : ¬['$', '{'].isPrefixOf (c :: (xs ++ ys))) :
    ¬['$', '{'].isPrefixOf (c :: xs) :=
  fun hp => h (@Scan.isPrefixOf_append (c :: xs) ys _ hp)

theorem Settled.isPrefixOf (h : Settled c xs ys s)
    (hc : isCode (next c (xs ++ ys) s).2.2 = false)
    (hp : ['$', '{'].isPrefixOf ((c :: xs).drop (next c (xs ++ ys) s).2.1 ++ ys)) :
    ['$', '{'].isPrefixOf ((c :: xs).drop (next c (xs ++ ys) s).2.1) := by
  obtain ⟨d, zs, hd, hl⟩ | ⟨hn, hc' | ⟨-, hy⟩⟩ := h
  · rw [hd] at hp ⊢
    exact dollarBrace_cut hp _ hl
  · rw [hc] at hc'
    cases hc'
  · rw [hn, List.drop_eq_nil_of_le (by simp)] at hp
    exact absurd hp hy

theorem code_cut (hs : isCode s = true) (ht : isCode t = true)
    (hl : (next c (xs ++ ys) s).2.1 ≤ xs.length + 1) (he : (next c (xs ++ ys) s).1 ≠ .error)
    (hp : isCode (next c (xs ++ ys) s).2.2 = false →
      ['$', '{'].isPrefixOf ((c :: xs).drop (next c (xs ++ ys) s).2.1 ++ ys) →
      ['$', '{'].isPrefixOf ((c :: xs).drop (next c (xs ++ ys) s).2.1)) :
    (next c xs t).1 = (next c (xs ++ ys) s).1 ∧ (next c xs t).2.1 = (next c (xs ++ ys) s).2.1 := by
  rw [next_code hs] at hl he hp
  rw [next_code hs, next_code ht, Scan.code_cut hl he fun hk => ?_]
  · exact ⟨rfl, rfl⟩
  · apply hp
    · rw [hk]
      rfl
    · rw [← drop_append hl]
      exact Scan.drop_of_pathFragment hk

theorem stringContent_dollarBrace {cs : List Char} (h : ['$', '{'].isPrefixOf cs) :
    Scan.stringContent cs = 0 := by
  obtain ⟨us, rfl⟩ := List.isPrefixOf_iff_prefix.mp h
  rfl

theorem string_cut (hl : (next c (xs ++ ys) (.string :: s)).2.1 ≤ xs.length + 1)
    (hn : Settled c xs ys (.string :: s)) :
    (next c xs (.string :: t)).1 = (next c (xs ++ ys) (.string :: s)).1 ∧
      (next c xs (.string :: t)).2.1 = (next c (xs ++ ys) (.string :: s)).2.1 := by
  by_cases hc : c == '"'
  · simp only [next, if_pos hc, and_self]
  by_cases hd : ['$', '{'].isPrefixOf (c :: (xs ++ ys))
  · have hd' := dollarBrace_cut hd _ hl
    simp only [next, if_neg hc, if_pos hd, if_pos hd', and_self]
  · have hd' := not_isPrefixOf_cut hd
    simp only [Settled, next, if_neg hc, if_neg hd] at hl hn
    simp only [next, if_neg hc, if_neg hd, if_neg hd', true_and]
    obtain ⟨e, zs, hz, hnext⟩ | ⟨-, hc' | ⟨⟨u, hu⟩, -⟩⟩ := hn
    · apply @Scan.stringContent_cut (c :: xs) ys hl
      have hstop := Scan.stringContent_drop (c :: (xs ++ ys))
      rw [drop_append hl, hz] at hstop
      rw [List.cons_append, hz]
      obtain rfl | hp := Scan.stringContent_eq_zero hstop
      · rfl
      · exact stringContent_dollarBrace (dollarBrace_cut hp (.string :: s) hnext)
    · cases hc'
    · cases hu

theorem indentedString_cut (hl : (next c (xs ++ ys) (.indentedString :: s)).2.1 ≤ xs.length + 1)
    (hn : Settled c xs ys (.indentedString :: s)) :
    (next c xs (.indentedString :: t)).1 = (next c (xs ++ ys) (.indentedString :: s)).1 ∧
      (next c xs (.indentedString :: t)).2.1 = (next c (xs ++ ys) (.indentedString :: s)).2.1 := by
  by_cases hd : ['$', '{'].isPrefixOf (c :: (xs ++ ys))
  · have hd' := dollarBrace_cut hd _ hl
    simp only [next, if_pos hd, if_pos hd', and_self]
  have hd' := not_isPrefixOf_cut hd
  have hzero : ∀ {e zs}, Scan.indentedContent (e :: (zs ++ ys)) = 0 →
      (next e (zs ++ ys) (.indentedString :: s)).2.1 ≤ zs.length + 1 →
      Scan.indentedContent (e :: zs) = 0 := by
    intro e zs hz hl
    refine @Scan.indentedContent_eq_zero_cut (e :: zs) ys hz ?_
    simp only [next, hz] at hl
    split at hl <;> exact hl
  cases hn' : Scan.indentedContent (c :: (xs ++ ys)) with
  | zero =>
    have hz := hzero hn' hl
    simp only [next, if_neg hd, if_neg hd', hn', hz, and_self]
  | succ n =>
    simp only [Settled, next, if_neg hd, hn'] at hl hn
    obtain ⟨e, zs, hz, hnext⟩ | ⟨-, hc' | ⟨⟨u, hu⟩, -⟩⟩ := hn
    · have hstop := Scan.indentedContent_drop (c :: (xs ++ ys))
      rw [hn', drop_append hl, hz] at hstop
      have he : Scan.indentedContent (c :: xs) = n + 1 := by
        rw [← hn']
        apply @Scan.indentedContent_cut (c :: xs) ys
        · have hlen := congrArg List.length hz
          simp only [List.length_drop, List.length_cons] at hlen
          rw [List.cons_append, hn', List.length_cons]
          omega
        · rw [List.cons_append, hn', hz]
          exact hzero hstop hnext
      simp only [next, if_neg hd, if_neg hd', hn', he, and_self]
    · cases hc'
    · cases hu

theorem path_cut (hs : isCode s = true) (ht : isCode t = true)
    (hl : (next c (xs ++ ys) (.path :: s)).2.1 ≤ xs.length + 1)
    (he : (next c (xs ++ ys) (.path :: s)).1 ≠ .error) (hn : Settled c xs ys (.path :: s)) :
    (next c xs (.path :: t)).1 = (next c (xs ++ ys) (.path :: s)).1 ∧
      (next c xs (.path :: t)).2.1 = (next c (xs ++ ys) (.path :: s)).2.1 := by
  by_cases hd : ['$', '{'].isPrefixOf (c :: (xs ++ ys))
  · have hd' := dollarBrace_cut hd _ hl
    simp only [next, if_pos hd, if_pos hd', and_self]
  · have hd' := not_isPrefixOf_cut hd
    by_cases hc : Scan.isPathBody c
    · simp only [next, if_neg hd, if_pos hc] at hl
      simp only [next, if_neg hd, if_neg hd', if_pos hc, true_and]
      rw [← List.cons_append] at hl ⊢
      rw [← Scan.takeWhile_cut hl]
    · rw [next_path hd hc] at hl he ⊢
      rw [next_path hd' hc]
      refine code_cut hs ht hl he fun hc' => ?_
      rw [← next_path hd hc] at hc' ⊢
      exact hn.isPrefixOf hc'

theorem ended_cut (hk : (next c (xs ++ ys) (.path :: s)).1.continuesPath = false)
    (hs : isCode s = true) (ht : isCode t = true)
    (hl : (next c (xs ++ ys) (.path :: s)).2.1 ≤ xs.length + 1)
    (he : (next c (xs ++ ys) (.path :: s)).1 ≠ .error) (hn : Settled c xs ys (.path :: s)) :
    (next c xs t).1 = (next c (xs ++ ys) (.path :: s)).1 ∧
      (next c xs t).2.1 = (next c (xs ++ ys) (.path :: s)).2.1 := by
  have hd : ¬['$', '{'].isPrefixOf (c :: (xs ++ ys)) := by
    intro hd
    rw [(next_dollarBrace hd _).1] at hk
    cases hk
  have hc : ¬Scan.isPathBody c := by
    intro hc
    rw [next, if_neg hd, if_pos hc] at hk
    cases hk
  rw [next_path hd hc] at hl he ⊢
  refine code_cut hs ht hl he fun hc' => ?_
  rw [← next_path hd hc] at hc' ⊢
  exact hn.isPrefixOf hc'

/-- A token is the same in a state that is like the other one, and where the text ends behind it. -/
theorem next_cut (h : Alike (next c (xs ++ ys) s).1 s t)
    (hl : (next c (xs ++ ys) s).2.1 ≤ xs.length + 1) (he : (next c (xs ++ ys) s).1 ≠ .error)
    (hn : Settled c xs ys s) :
    (next c xs t).1 = (next c (xs ++ ys) s).1 ∧ (next c xs t).2.1 = (next c (xs ++ ys) s).2.1 := by
  generalize hkind : (next c (xs ++ ys) s).1 = k at h
  cases h with
  | code hs ht => exact hkind ▸ code_cut hs ht hl he hn.isPrefixOf
  | string s t => exact hkind ▸ string_cut hl hn
  | indentedString s t => exact hkind ▸ indentedString_cut hl hn
  | path hs ht => exact hkind ▸ path_cut hs ht hl he hn
  | ended hk hs ht => exact hkind ▸ ended_cut (hkind ▸ hk) hs ht hl he hn

end

/-- The modes after tokens of the kinds. -/
def run (ks : List Kind) (s : List Mode) : List Mode := ks.foldl (fun s k => after k s) s

/-- The two states stay alike along tokens of the kinds, none of which is an error. -/
def Lockstep : List Kind → List Mode → List Mode → Prop
  | [], _, _ => True
  | k :: ks, s, t => k ≠ .error ∧ Alike k s t ∧ Lockstep ks (after k s) (after k t)

@[simp] theorem run_nil (s : List Mode) : run [] s = s := rfl

@[simp] theorem run_cons (k : Kind) (ks : List Kind) (s : List Mode) :
    run (k :: ks) s = run ks (after k s) := rfl

theorem run_append (ks ks' : List Kind) (s : List Mode) :
    run (ks ++ ks') s = run ks' (run ks s) :=
  List.foldl_append ..

theorem Lockstep.append {ks ks' : List Kind} {s t : List Mode} (h : Lockstep ks s t)
    (h' : Lockstep ks' (run ks s) (run ks t)) : Lockstep (ks ++ ks') s t := by
  induction ks generalizing s t with
  | nil => exact h'
  | cons k ks ih => exact ⟨h.1, h.2.1, ih h.2.2 h'⟩

end Mode

namespace Token

open Mode

def chars (ts : List Token) : List Char := ts.flatMap fun t => t.text.toList

theorem chars_cons (t : Token) (ts : List Token) : chars (t :: ts) = t.text.toList ++ chars ts := rfl

theorem chars_append (ts us : List Token) : chars (ts ++ us) = chars ts ++ chars us :=
  List.flatMap_append

theorem chars_lexFrom (cs : List Char) (s : List Mode) : chars (lexFrom cs 0 s) = cs :=
  lexFrom_spells cs s

theorem lexFrom_eq_cons {cs : List Char} {s : List Mode} {t : Token} {ts : List Token}
    (h : lexFrom cs 0 s = t :: ts) : ∃ c w zs, t.text.toList = c :: w ∧ cs = c :: (w ++ zs) ∧
      (next c (w ++ zs) s).1 = t.kind ∧ (next c (w ++ zs) s).2.1 = w.length + 1 ∧
      lexFrom zs 0 (next c (w ++ zs) s).2.2 = ts := by
  cases cs with
  | nil => cases h
  | cons c cs =>
    obtain ⟨hpos, hle⟩ := next_fits c cs s
    rw [lexFrom_cons, List.cons.injEq] at h
    obtain ⟨rfl, h⟩ := h
    generalize hn : (next c cs s).2.1 = n at h hpos hle
    cases n with
    | zero => cases hpos
    | succ n =>
      rw [List.length_cons, Nat.add_le_add_iff_right] at hle
      refine ⟨c, cs.take n, cs.drop n, by simp, by simp, ?_⟩
      rw [List.take_append_drop, List.length_take_of_le hle]
      exact ⟨rfl, hn, h⟩

theorem lexFrom_of_next {c : Char} {w zs : List Char} {s : List Mode} {t : Token}
    (ht : t.text.toList = c :: w) (hk : (next c (w ++ zs) s).1 = t.kind)
    (hn : (next c (w ++ zs) s).2.1 = w.length + 1) :
    lexFrom (c :: (w ++ zs)) 0 s = t :: lexFrom zs 0 (next c (w ++ zs) s).2.2 := by
  have htext : t.text = String.ofList (c :: w) := by rw [← ht, String.ofList_toList]
  rw [lexFrom_cons, hn]
  simp [hk, ← htext]

theorem lexFrom_append {cs : List Char} {s t : List Mode} {ts us : List Token}
    (h : lexFrom cs 0 s = ts ++ us) (hs : Lockstep (ts.map Token.kind) s t) :
    lexFrom (chars us) 0 (run (ts.map Token.kind) s) = us := by
  induction ts generalizing cs s t with
  | nil =>
    rw [List.nil_append] at h
    rw [← h, chars_lexFrom]
    rfl
  | cons o ts ih =>
    obtain ⟨c, w, zs, -, rfl, hk, -, h⟩ := lexFrom_eq_cons h
    obtain ⟨-, ha, hs⟩ := hs
    rw [next_after ha.left, hk] at h
    exact ih h hs

/-- A part of a text is split into the same tokens by itself. -/
theorem lexFrom_cut {ys : List Char} {s t : List Mode} {ts us : List Token}
    (h : lexFrom (chars ts ++ ys) 0 s = ts ++ us) (hs : Lockstep (ts.map Token.kind) s t)
    (he : Closed ys (run (ts.map Token.kind) s)) : lexFrom (chars ts) 0 t = ts := by
  induction ts generalizing s t with
  | nil => rfl
  | cons o ts ih =>
    obtain ⟨hne, ha, hs⟩ := hs
    obtain ⟨c, w, zs, ho, hzs, hk, hn, h⟩ := lexFrom_eq_cons h
    rw [chars_cons, ho] at hzs ⊢
    have hzs : chars ts ++ ys = zs := by simpa using hzs
    subst hzs
    rw [← List.append_assoc] at hk hn h
    have hafter := @next_after c (w ++ chars ts ++ ys) s ha.left
    rw [hk] at hafter
    have hl : (next c (w ++ chars ts ++ ys) s).2.1 ≤ (w ++ chars ts).length + 1 := by
      rw [hn, List.length_append]
      omega
    have hset : Settled c (w ++ chars ts) ys s := by
      cases ts with
      | nil => exact .inr ⟨by simpa [chars] using hn, hafter ▸ he⟩
      | cons o' ts =>
        obtain ⟨d, v, zs, ho', hzs, -, hn', -⟩ := lexFrom_eq_cons h
        rw [chars_cons, ho'] at hzs
        have hzs : chars ts ++ ys = zs := by simpa using hzs
        subst hzs
        refine .inl ⟨d, v ++ chars ts, ?_, ?_⟩
        · rw [hn, chars_cons, ho']
          simp
        · rw [List.append_assoc, hn', List.length_append]
          omega
    obtain ⟨hk', hn'⟩ := next_cut (hk ▸ ha) hl (hk ▸ hne) hset
    rw [List.cons_append, lexFrom_of_next ho (hk'.trans hk) (hn'.trans hn)]
    rw [next_after ha.right, hk', hk]
    rw [hafter] at h
    rw [ih h hs he]

end Token

end NixScope.Syntax
