import FeatureLogic.Proofs.Notation.Denotation

/-!
How tokens are spelt. Whatever token is read, blanks and then its characters were left out of the
text (`Cursor.exists_of_scan`). From this it follows what a name that is printed as it is can be
read as: as one word, as one number with blanks around it, or as something shorter
(`exists_of_bracketed`).
-/

namespace FeatureLogic

/-- A node of this type without values. -/
def Shape.Bare (S : Shape) (x : NodeId) (t : TypeId) : Prop :=
  S.type x = t ∧ ∀ f, S.value? x f = none

namespace Notation

/-- The characters of a token. Of a quoted text only is said that it has its marks besides. -/
inductive Spelt : Token → List Char → Prop
  | openBracket : Spelt .openBracket ['[']
  | closeBracket : Spelt .closeBracket [']']
  | openParen : Spelt .openParen ['(']
  | closeParen : Spelt .closeParen [')']
  | hash : Spelt .hash ['#']
  | word {cs : List Char} (hne : cs ≠ []) (hword : ∀ c ∈ cs, Cursor.isWordChar c = true) :
      Spelt (.ofWord cs) cs
  | quoted {text : String} {cs : List Char} (hlength : text.length + 2 ≤ cs.length) :
      Spelt (.quoted text) cs

theorem ofWord_cases (cs : List Char) :
    (∃ n, Token.ofWord cs = .number n) ∨ Token.ofWord cs = .word (String.ofList cs) := by
  unfold Token.ofWord
  split
  · exact .inl ⟨_, rfl⟩
  · exact .inr rfl

/-- What stands for a type is one run of characters of words, or longer than the quoted text. -/
theorem Spelt.mark_cases {mark : TypeMark} {cs : List Char} (h : Spelt mark.token cs) :
    (cs ≠ [] ∧ (∀ c ∈ cs, Cursor.isWordChar c = true) ∧ Token.ofWord cs = mark.token) ∨
      ∃ text, mark = .quoted text ∧ text.length + 2 ≤ cs.length := by
  generalize htoken : mark.token = token at h
  cases h with
  | word hne hword => exact .inl ⟨hne, hword, rfl⟩
  | quoted hlength =>
    cases mark <;> cases htoken
    exact .inr ⟨_, rfl, hlength⟩
  | _ => cases mark <;> cases htoken

namespace Cursor

/-- Blanks are skipped up to a character that is none, or to the end. -/
theorem exists_of_skipBlanks (k : Cursor) : ∃ blanks, (∀ c ∈ blanks, Text.isBlank c = true) ∧
    k.rest = blanks ++ k.skipBlanks.rest ∧
      ∀ c ∈ k.skipBlanks.rest.head?, Text.isBlank c = false := by
  fun_induction skipBlanks k with
  | case1 => exact ⟨[], List.forall_mem_nil _, rfl, fun c hc => by cases hc⟩
  | case2 c rest line column hblank ih =>
    obtain ⟨blanks, hblanks, hrest, hhead⟩ := ih
    rw [rest_advance] at hrest
    exact ⟨c :: blanks, List.forall_mem_cons.2 ⟨hblank, hblanks⟩, congrArg (c :: ·) hrest, hhead⟩
  | case3 c rest line column hblank =>
    refine ⟨[], List.forall_mem_nil _, rfl, fun d hd => ?_⟩
    obtain rfl : c = d := Option.some.inj hd
    exact eq_false_of_ne_true hblank

/-- A quoted text is read up to its mark. -/
theorem exists_of_quotedText {k k' : Cursor} {text : List Char} {name : String}
    (h : k.quotedText text = (some name, k')) :
    ∃ cs, k.rest = cs ++ k'.rest ∧ name.length + 1 ≤ text.length + cs.length := by
  fun_induction quotedText k text with
  | case1 => cases h
  | case2 text line column rest =>
    cases h
    exact ⟨['"'], by rw [rest_advance]; rfl, by simp⟩
  | case3 => cases h
  | case4 text line column c rest ih =>
    obtain ⟨cs, hcs, hlength⟩ := ih h
    rw [rest_advance] at hcs
    refine ⟨'\\' :: c :: cs, by rw [hcs]; rfl, ?_⟩
    simp only [List.length_cons] at hlength ⊢
    omega
  | case5 text c rest line column _ _ ih =>
    obtain ⟨cs, hcs, hlength⟩ := ih h
    rw [rest_advance] at hcs
    refine ⟨c :: cs, by rw [hcs]; rfl, ?_⟩
    simp only [List.length_cons] at hlength ⊢
    omega

/-- A token was read from its characters, which may have blanks before them. -/
theorem exists_of_scan {k k' : Cursor} {token : Token} {position : Position}
    (h : k.scan = (.ok (some (token, position)), k')) :
    ∃ blanks cs, (∀ c ∈ blanks, Text.isBlank c = true) ∧ Spelt token cs ∧
      k.rest = blanks ++ (cs ++ k'.rest) := by
  obtain ⟨blanks, hblanks, hrest, hhead⟩ := k.exists_of_skipBlanks
  suffices ∃ cs, Spelt token cs ∧ k.skipBlanks.rest = cs ++ k'.rest by
    obtain ⟨cs, hspelt, hcs⟩ := this
    exact ⟨blanks, cs, hblanks, hspelt, hcs ▸ hrest⟩
  rw [scan] at h
  dsimp only at h
  generalize k.skipBlanks = k₁ at h hhead ⊢
  clear hrest
  split at h
  · cases h
  · rename_i c rest hrest
    rw [hrest] at hhead ⊢
    split at h
    case h_1 => cases h; exact ⟨_, .openBracket, by rw [rest_advance]; rfl⟩
    case h_2 => cases h; exact ⟨_, .closeBracket, by rw [rest_advance]; rfl⟩
    case h_3 => cases h; exact ⟨_, .openParen, by rw [rest_advance]; rfl⟩
    case h_4 => cases h; exact ⟨_, .closeParen, by rw [rest_advance]; rfl⟩
    case h_5 => cases h; exact ⟨_, .hash, by rw [rest_advance]; rfl⟩
    case h_6 =>
      split at h <;> cases h
      rename_i text k₂ hquoted
      obtain ⟨cs, hcs, hlength⟩ := exists_of_quotedText hquoted
      rw [rest_advance] at hcs
      refine ⟨'"' :: cs, .quoted ?_, by rw [hcs]; rfl⟩
      simp only [List.length_nil, List.length_cons] at hlength ⊢
      omega
    case h_7 hopen hclose hleft hright hhash hmark =>
      cases h
      have hc : isWordChar c = true := by
        -- what is neither blank nor one of the marks belongs to a word
        have hblank := hhead c rfl
        simp only [isWordChar, isDelimiter, hblank]
        simp only [Bool.not_false, Bool.true_and, Bool.not_eq_true', Bool.or_eq_false_iff,
          beq_eq_false_iff_ne]
        exact ⟨⟨⟨⟨⟨hopen, hclose⟩, hleft⟩, hright⟩, hhash⟩, hmark⟩
      refine ⟨c :: rest.takeWhile isWordChar, ?_, ?_⟩
      · rw [wordText, rest_advance]
        refine .word (List.cons_ne_nil _ _) (List.forall_mem_cons.2 ⟨hc, fun d hd => ?_⟩)
        exact List.all_eq_true.1 (List.all_takeWhile) d hd
      · rw [wordText, rest_advance, List.cons_append, List.takeWhile_append_dropWhile]

/-- The text ends where no token is found. -/
theorem isBlank_of_scan {k k' : Cursor} (h : k.scan = (.ok none, k')) :
    ∀ c ∈ k.rest, Text.isBlank c = true := by
  obtain ⟨blanks, hblanks, hrest, -⟩ := k.exists_of_skipBlanks
  rw [scan] at h
  dsimp only at h
  split at h
  · rename_i hnil
    rw [hrest, hnil, List.append_nil]
    exact hblanks
  · split at h
    any_goals cases h
    split at h <;> cases h

end Cursor

/-! ## Names between brackets -/

namespace Scanner

/-- When a name before a closing bracket is read as one mark and the text ends after the bracket,
the name is the characters of the mark, with blanks around them maybe. -/
theorem exists_of_bracketed {name : List Char} {token : Token} {s s' s'' : Scanner}
    (hahead : s.ahead = none) (hrest : s.cursor.rest = name ++ [']'])
    (h : s.Yields [token, .closeBracket] s') (hend : s'.next = (.ok none, s'')) :
    ∃ before cs after, (∀ c ∈ before, Text.isBlank c = true) ∧
      (∀ c ∈ after, Text.isBlank c = true) ∧ Spelt token cs ∧ name = before ++ (cs ++ after) := by
  obtain ⟨_, s₁, hfirst, h⟩ := yields_cons_iff.1 h
  obtain ⟨_, hsecond⟩ := yields_singleton_iff.1 h
  obtain ⟨hscan₁, hahead₁⟩ := scan_of_next hahead hfirst
  obtain ⟨hscan₂, hahead₂⟩ := scan_of_next hahead₁ hsecond
  obtain ⟨before, cs, hbefore, hspelt, hcs⟩ := Cursor.exists_of_scan hscan₁
  obtain ⟨after, bracket, hafter, hbracket, hcs'⟩ := Cursor.exists_of_scan hscan₂
  have hblank := Cursor.isBlank_of_scan (scan_of_next hahead₂ hend).1
  obtain rfl : bracket = [']'] := by
    generalize htoken : Token.closeBracket = token at hbracket
    cases hbracket with
    | closeBracket => rfl
    | word => rcases ofWord_cases bracket with ⟨n, hword⟩ | hword <;> cases htoken.trans hword
    | _ => cases htoken
  -- the bracket that is read is the last character, as blanks alone follow it
  rw [hrest, hcs'] at hcs
  have hnil : s'.cursor.rest = [] := by
    by_contra hne
    have hlast := congrArg List.getLast? hcs
    rw [List.getLast?_concat] at hlast
    simp only [List.getLast?_append, List.getLast?_eq_some_getLast hne, Option.some_or] at hlast
    have := hblank _ (List.getLast_mem hne)
    rw [← Option.some.inj hlast] at this
    exact absurd this (by decide)
  rw [hnil, List.append_nil, ← List.append_assoc cs, ← List.append_assoc before] at hcs
  exact ⟨before, cs, after, hbefore, hafter, hspelt, List.append_cancel_right hcs⟩

/-- A token before a closing bracket at the end of the text. -/
theorem exists_yields_bracketed {cs after : List Char} {token : Token} {s : Scanner}
    (hahead : s.ahead = none) (hrest : s.cursor.rest = cs) (h : Scans cs token (after ++ [']']))
    (hafter : ∀ c ∈ after, Text.isBlank c = true) :
    ∃ s' s'', s.Yields [token, .closeBracket] s' ∧ s'.next = (.ok none, s'') := by
  obtain ⟨s₁, hfirst, hahead₁, hrest₁⟩ := exists_yields_of_scans hahead hrest h
  obtain ⟨⟨cursor, ahead⟩, hsecond, rfl, hnil⟩ := exists_yields_of_scans hahead₁ hrest₁
    ((scans_closeBracket []).blanks hafter)
  refine ⟨_, ⟨cursor, none⟩, hfirst.append hsecond, ?_⟩
  simp only [next, scan_nil hnil]

/-- A text that begins with a bracket does not begin with a coreference. -/
theorem exists_yields_bracket_iff {text : String} {cs : List Char}
    (htext : text.toList = '[' :: cs) : ∃ s : Scanner, s.ahead = none ∧ s.cursor.rest = cs ∧
      ∀ {names : NameTable} {number : Option Nat} {mark : TypeMark} {s' : Scanner},
        (start text).Yields (Phrase.bracket number mark .nil : Phrase names).tokens s' ↔
          number = none ∧ s.Yields [mark.token, .closeBracket] s' := by
  obtain ⟨s, hopen, hahead, hrest⟩ := exists_yields_of_scans (s := start text) rfl htext
    (scans_openBracket cs)
  obtain ⟨position, hnext⟩ := yields_singleton_iff.1 hopen
  refine ⟨s, hahead, hrest, fun {names number mark s'} => ?_⟩
  cases number with
  | none =>
    show (start text).Yields [.openBracket, mark.token, .closeBracket] s' ↔ _
    simp only [true_and]
    rw [yields_cons_iff, hnext]
    simp
  | some n =>
    refine iff_of_false (fun h => ?_) (by simp)
    obtain ⟨_, s₁, hhash, -⟩ := yields_cons_iff.1 h
    cases hnext.symm.trans hhash

end Scanner

/-- A name that between brackets is read as the type with this number, if it is that type's name: it
is a word and no number, or it is the number itself, with blanks around it maybe. -/
inductive Denotes (name : String) (i : Nat) : Prop
  | word (hne : name.toList ≠ []) (hword : ∀ c ∈ name.toList, Cursor.isWordChar c = true)
    (htoken : Token.ofWord name.toList = .word name)
  | number (htoken : Token.ofWord (Text.trim name.toList) = .number i)

theorem denotes_iff {name : String} {i : Nat} : Denotes name i ↔
    (name.toList ≠ [] ∧ name.toList.all Cursor.isWordChar = true ∧
      Token.ofWord name.toList = .word name) ∨ Token.ofWord (Text.trim name.toList) = .number i := by
  constructor
  · intro h
    cases h with
    | word hne hword htoken => exact .inl ⟨hne, List.all_eq_true.2 hword, htoken⟩
    | number htoken => exact .inr htoken
  · rintro (⟨hne, hword, htoken⟩ | htoken)
    · exact .word hne (List.all_eq_true.1 hword) htoken
    · exact .number htoken

instance (name : String) (i : Nat) : Decidable (Denotes name i) :=
  decidable_of_iff _ denotes_iff.symm

example : Denotes "noun-phrase" 7 ∧ Denotes " 7 " 7 ∧ ¬ Denotes "noun phrase" 7 := by decide

theorem isDigit_of_ofWord {cs : List Char} {n : Nat} (h : Token.ofWord cs = .number n) :
    cs ≠ [] ∧ ∀ c ∈ cs, c.isDigit = true := by
  unfold Token.ofWord at h
  split at h
  · rename_i m hsome
    obtain ⟨hdigits, -⟩ := Option.filter_eq_some_iff.1 hsome
    rw [Text.digitsNat?] at hdigits
    split at hdigits
    · cases hdigits
    · rename_i hcs
      simp only [Bool.or_eq_true, Bool.not_eq_true', not_or, Bool.not_eq_true, Bool.not_eq_false,
        List.isEmpty_eq_false_iff, List.all_eq_true] at hcs
      exact hcs
  · cases h

/-- What such a name is read as. -/
theorem Denotes.exists_scans {name : String} {i : Nat} (h : Denotes name i) :
    ∃ (mark : TypeMark) (after : List Char), (mark = .word name ∨ mark = .number i) ∧
      (∀ c ∈ after, Text.isBlank c = true) ∧
      Scans (name.toList ++ [']']) mark.token (after ++ [']']) := by
  cases h with
  | word hne hword htoken =>
    refine ⟨.word name, [], .inl rfl, List.forall_mem_nil _, ?_⟩
    rw [TypeMark.token, ← htoken]
    exact scans_word hne hword fun c hc => by cases hc; decide
  | number htoken =>
    obtain ⟨before, after, hbefore, hafter, hname⟩ := Text.exists_trim name.toList
    obtain ⟨hne, hdigits⟩ := isDigit_of_ofWord htoken
    refine ⟨.number i, after, .inr rfl, hafter, ?_⟩
    rw [TypeMark.token, ← htoken, hname, List.append_assoc, List.append_assoc, ← hname]
    refine (scans_word hne (fun c hc => isWordChar_of_isDigit (hdigits c hc)) ?_).blanks hbefore
    intro c hc
    cases after with
    | nil => cases hc; decide
    | cons d after =>
      obtain rfl : d = c := Option.some.inj hc
      simp [Cursor.isWordChar, hafter d List.mem_cons_self]

/-! ## Whole texts -/

section Whole

variable {names : NameTable} {l : Lattice} {g : Graph} {text : String}

/-- A phrase that is all of a text is read as what it denotes. -/
theorem exists_parse {p : Phrase names} {s' s'' : Scanner} (hp : p.WellNumbered)
    (hs : (Scanner.start text).Yields p.tokens s') (hend : s'.next = (.ok none, s'')) :
    ∃ g', parse names l g text = ⟨.ok g.size, g', taught l p.drawing, s''⟩ ∧
      (p.shape l).Isomorphic 0 g'.shape g.size := by
  obtain ⟨g', hread, hiso⟩ := exists_read (l := l) (g := g) hp hs
  refine ⟨g', ?_, hiso⟩
  rw [parse, hread]
  simp only [hend]

/-- A text that is read is a phrase. -/
theorem exists_phrase_of_parse {node : NodeId} (h : (parse names l g text).outcome = .ok node) :
    ∃ (p : Phrase names) (s' s'' : Scanner), p.WellNumbered ∧
      (Scanner.start text).Yields p.tokens s' ∧ s'.next = (.ok none, s'') := by
  cases hread : (read names l g (.start text)).outcome with
  | error e =>
    rcases hresult : read names l g (.start text) with ⟨outcome, g', l', s'⟩
    simp only [hresult] at hread
    subst hread
    simp [parse, hresult] at h
  | ok node' =>
    obtain ⟨p, s', hp, hs⟩ := exists_phrase_of_read hread
    obtain ⟨g', hresult, -⟩ := exists_read (l := l) (g := g) hp hs
    refine ⟨p, s', s'.next.2, hp, hs, ?_⟩
    rw [parse, hresult] at h
    dsimp only at h
    split at h
    · rename_i s'' hnext
      rw [hnext]
    · cases h
    · cases h

/-- A text is read as a node of this type without features just when it is a bracket with a mark
for the type alone, maybe after a coreference. -/
theorem parse_bare_iff (names : NameTable) (l : Lattice) (g : Graph) (text : String) (t : TypeId) :
    (∃ node, (parse names l g text).outcome = .ok node ∧
      (parse names l g text).graph.shape.Bare node t) ↔
    ∃ (number : Option Nat) (mark : TypeMark) (s' s'' : Scanner),
      (Scanner.start text).Yields (Phrase.bracket number mark .nil : Phrase names).tokens s' ∧
        s'.next = (.ok none, s'') ∧ (mark.resolve l).1 = t := by
  constructor
  · rintro ⟨node, hnode, hbare⟩
    obtain ⟨p, s', s'', hp, hs, hend⟩ := exists_phrase_of_parse hnode
    obtain ⟨g', hparse, μ, hroot, -, hμ⟩ := exists_parse (l := l) (g := g) hp hs hend
    obtain ⟨htype, hvalue⟩ := hμ 0 Relation.ReflTransGen.refl
    rw [hparse] at hnode hbare
    obtain rfl : g.size = node := Except.ok.inj hnode
    rw [← hroot] at hbare
    rw [hbare.1] at htype
    cases p with
    | again n => simp [Phrase.WellNumbered, Phrase.mentions, Numbered] at hp
    | bracket number mark pairs =>
      cases pairs with
      | nil => exact ⟨number, mark, s', s'', hs, hend, htype.symm⟩
      | cons feature value rest =>
        -- a feature would have a value
        exfalso
        have hnone := hvalue feature.feature
        rw [hbare.2, eq_comm, Option.map_eq_none_iff] at hnone
        refine Edges.target?_eq_none_iff.1 hnone _ (List.mem_reverse.2 List.mem_cons_self) rfl
  · rintro ⟨number, mark, s', s'', hs, hend, rfl⟩
    have hp : (Phrase.bracket number mark .nil : Phrase names).WellNumbered := by
      cases number <;> simp [Phrase.WellNumbered, Phrase.mentions, Pairs.mentions, Numbered]
    obtain ⟨g', hparse, μ, hroot, -, hμ⟩ := exists_parse (l := l) (g := g) hp hs hend
    obtain ⟨htype, hvalue⟩ := hμ 0 Relation.ReflTransGen.refl
    rw [hroot] at htype hvalue
    rw [hparse]
    exact ⟨_, rfl, htype, fun f => by rw [hvalue f]; rfl⟩

end Whole

end Notation

end FeatureLogic
