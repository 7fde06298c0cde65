import Mathlib.Tactic.IntervalCases
import FeatureLogic.Notation.Printer
import FeatureLogic.Notation.Scanner
import FeatureLogic.Proofs.Text

/-!
Scanning what was printed. Each piece of a printed text is read back as the token that it stands
for, with the text that follows it left over (`Scans`). A word needs that text to begin with a
character that is part of no word. Of any text no more tokens are read than it has characters
(`Scanner.Yields.length_le`).
-/

namespace FeatureLogic.Notation

/-- The text `cs` begins with a token, maybe after blanks, and `rest` follows it. -/
def Scans (cs : List Char) (token : Token) (rest : List Char) : Prop :=
  ∀ k : Cursor, k.rest = cs →
    ∃ position k', k.scan = (.ok (some (token, position)), k') ∧ k'.rest = rest

/-- A word is at its end when this text follows. -/
def EndsWord (rest : List Char) : Prop := ∀ c ∈ rest.head?, Cursor.isWordChar c = false

namespace Cursor

@[simp] theorem rest_advance (k : Cursor) (c : Char) (rest : List Char) :
    (k.advance c rest).rest = rest := by
  unfold advance
  split <;> rfl

theorem skipBlanks_of_blank {k : Cursor} {c : Char} {rest : List Char} (h : k.rest = c :: rest)
    (hc : Text.isBlank c = true) : k.skipBlanks = (k.advance c rest).skipBlanks := by
  obtain ⟨cs, line, column⟩ := k
  subst h
  rw [skipBlanks, if_pos hc]

theorem skipBlanks_of_not_blank {k : Cursor} {c : Char} {rest : List Char} (h : k.rest = c :: rest)
    (hc : Text.isBlank c = false) : k.skipBlanks = k := by
  obtain ⟨cs, line, column⟩ := k
  subst h
  rw [skipBlanks, if_neg (by simp [hc])]

end Cursor

/-! ## Single characters -/

theorem scans_openBracket (rest : List Char) : Scans ('[' :: rest) .openBracket rest := by
  intro k hk
  refine ⟨k.position, k.advance '[' rest, ?_, k.rest_advance '[' rest⟩
  rw [Cursor.scan, Cursor.skipBlanks_of_not_blank hk (by decide)]
  simp only [hk]

theorem scans_closeBracket (rest : List Char) : Scans (']' :: rest) .closeBracket rest := by
  intro k hk
  refine ⟨k.position, k.advance ']' rest, ?_, k.rest_advance ']' rest⟩
  rw [Cursor.scan, Cursor.skipBlanks_of_not_blank hk (by decide)]
  simp only [hk]

theorem scans_hash (rest : List Char) : Scans ('#' :: rest) .hash rest := by
  intro k hk
  refine ⟨k.position, k.advance '#' rest, ?_, k.rest_advance '#' rest⟩
  rw [Cursor.scan, Cursor.skipBlanks_of_not_blank hk (by decide)]
  simp only [hk]

/-- Blanks before a token do not count. -/
theorem Scans.blanks {cs rest : List Char} {token : Token} (h : Scans cs token rest)
    {blanks : List Char} (hblanks : ∀ c ∈ blanks, Text.isBlank c = true) :
    Scans (blanks ++ cs) token rest := by
  induction blanks with
  | nil => exact h
  | cons c blanks ih =>
    obtain ⟨hc, hblanks⟩ := List.forall_mem_cons.1 hblanks
    intro k hk
    rw [List.cons_append] at hk
    obtain ⟨position, k', hscan, hrest⟩ := ih hblanks (k.advance c _) (k.rest_advance c _)
    refine ⟨position, k', ?_, hrest⟩
    rw [← hscan, Cursor.scan, Cursor.scan, Cursor.skipBlanks_of_blank hk hc]

theorem Scans.blank {cs rest : List Char} {token : Token} (h : Scans cs token rest) :
    Scans (' ' :: cs) token rest :=
  h.blanks (List.forall_mem_singleton.2 (by decide))

/-- At the end of the text there is no token. -/
theorem scan_nil {k : Cursor} (hk : k.rest = []) : k.scan = (.ok none, k) := by
  have hblank : k.skipBlanks = k := by
    obtain ⟨cs, line, column⟩ := k
    subst hk
    rw [Cursor.skipBlanks]
  rw [Cursor.scan, hblank]
  simp only [hk]

/-! ## Words and numbers -/

theorem not_isBlank_of_isWordChar {c : Char} (h : Cursor.isWordChar c = true) :
    Text.isBlank c = false := by
  simp only [Cursor.isWordChar, Bool.and_eq_true, Bool.not_eq_true'] at h
  exact h.1

theorem isWordChar_of_isDigit {c : Char} (h : c.isDigit = true) : Cursor.isWordChar c = true := by
  have hbounds : 48 ≤ c.toNat ∧ c.toNat ≤ 57 := Char.isDigit_iff_toNat.1 h
  have hc : c = Char.ofNat c.toNat := (Char.ofNat_toNat c).symm
  obtain ⟨n, hn⟩ : ∃ n, n = c.toNat := ⟨_, rfl⟩
  rw [← hn] at hbounds hc
  subst hc
  obtain ⟨hlow, hhigh⟩ := hbounds
  interval_cases n <;> decide

/-- Characters of a word are read as one token. -/
theorem scans_word {word rest : List Char} (hne : word ≠ [])
    (hword : ∀ c ∈ word, Cursor.isWordChar c = true) (hrest : EndsWord rest) :
    Scans (word ++ rest) (.ofWord word) rest := by
  obtain ⟨c, more, rfl⟩ := List.exists_cons_of_ne_nil hne
  intro k hk
  have hc := hword c (List.mem_cons_self ..)
  have htake : (more ++ rest).takeWhile Cursor.isWordChar = more ∧
      (more ++ rest).dropWhile Cursor.isWordChar = rest := by
    have hmore : ∀ c ∈ more, Cursor.isWordChar c = true :=
      fun c hc => hword c (List.mem_cons_of_mem _ hc)
    -- the word ends where the rest begins
    have hstop : rest.takeWhile Cursor.isWordChar = [] ∧
        rest.dropWhile Cursor.isWordChar = rest := by
      cases rest with
      | nil => exact ⟨rfl, rfl⟩
      | cons d rest => simp [hrest d rfl]
    rw [List.takeWhile_append_of_pos hmore, List.dropWhile_append_of_pos hmore, hstop.1, hstop.2,
      List.append_nil]
    exact ⟨rfl, rfl⟩
  refine ⟨k.position, ((k.advance c (more ++ rest)).wordText).2, ?_, ?_⟩
  · rw [Cursor.scan, Cursor.skipBlanks_of_not_blank hk (not_isBlank_of_isWordChar hc)]
    simp only [hk, List.cons_append]
    split
    case h_7 => rw [Cursor.wordText, Cursor.rest_advance, htake.1]
    all_goals exact absurd hc (by decide)
  · rw [Cursor.wordText, Cursor.rest_advance]
    exact htake.2

theorem ofWord_toString {n : Nat} (hn : n < 2 ^ 32) :
    Token.ofWord (toString n).toList = .number n := by
  rw [Token.ofWord, Text.digitsNat?_toString, Option.filter_some_pos]
  exact decide_eq_true hn

theorem scans_number {n : Nat} (hn : n < 2 ^ 32) {rest : List Char} (hrest : EndsWord rest) :
    Scans ((toString n).toList ++ rest) (.number n) rest := by
  rw [← ofWord_toString hn]
  refine scans_word (Text.toList_toString_ne_nil n) (fun c hc => ?_) hrest
  exact isWordChar_of_isDigit (Text.isDigit_of_mem_toString hc)

/-- A name that is read as a word: it is not empty, blanks and delimiters are no part of it, and
it has more than digits. -/
structure Readable (name : String) : Prop where
  isWordChar : ∀ c ∈ name.toList, Cursor.isWordChar c = true
  not_isDigit : ∃ c ∈ name.toList, c.isDigit = false

theorem readable_iff {name : String} : Readable name ↔
    (name.toList.all Cursor.isWordChar && name.toList.any fun c => !c.isDigit) = true := by
  rw [Bool.and_eq_true, List.all_eq_true, List.any_eq_true]
  simp only [Bool.not_eq_true']
  exact ⟨fun h => ⟨h.1, h.2⟩, fun h => ⟨h.1, h.2⟩⟩

instance (name : String) : Decidable (Readable name) := decidable_of_iff _ readable_iff.symm

theorem scans_readable {name : String} (h : Readable name) {rest : List Char}
    (hrest : EndsWord rest) : Scans (name.toList ++ rest) (.word name) rest := by
  obtain ⟨c, hc, hdigit⟩ := h.not_isDigit
  have hnone : Text.digitsNat? name.toList = none := by
    have hall : name.toList.all Char.isDigit = false :=
      List.all_eq_false.2 ⟨c, hc, by simp [hdigit]⟩
    simp [Text.digitsNat?, hall]
  have hword : Token.ofWord name.toList = .word name := by
    rw [Token.ofWord, hnone, Option.filter_none, String.ofList_toList]
  rw [← hword]
  exact scans_word (List.ne_nil_of_mem hc) h.isWordChar hrest

/-! ## Quoted names -/

/-- A character as it stands between quotation marks. -/
def escaped (c : Char) : List Char := if c = '"' ∨ c = '\\' then ['\\', c] else [c]

namespace Cursor

theorem quotedText_mark {k : Cursor} {rest : List Char} (h : k.rest = '"' :: rest)
    (text : List Char) :
    k.quotedText text = (some (String.ofList text.reverse), k.advance '"' rest) := by
  obtain ⟨cs, line, column⟩ := k
  subst h
  rw [quotedText]

theorem quotedText_escape {k : Cursor} {c : Char} {rest : List Char}
    (h : k.rest = '\\' :: c :: rest) (text : List Char) :
    k.quotedText text = ((k.advance '\\' (c :: rest)).advance c rest).quotedText (c :: text) := by
  obtain ⟨cs, line, column⟩ := k
  subst h
  rw [quotedText]

theorem quotedText_char {k : Cursor} {c : Char} {rest : List Char} (h : k.rest = c :: rest)
    (hmark : c ≠ '"') (hescape : c ≠ '\\') (text : List Char) :
    k.quotedText text = (k.advance c rest).quotedText (c :: text) := by
  obtain ⟨cs, line, column⟩ := k
  subst h
  rw [quotedText]
  · exact fun heq => hmark heq
  · exact fun heq => hescape heq

/-- A name between quotation marks is read up to the second of them. -/
theorem quotedText_name (name rest text : List Char) {k : Cursor}
    (h : k.rest = name.flatMap escaped ++ '"' :: rest) :
    ∃ k', k.quotedText text = (some (String.ofList (text.reverse ++ name)), k') ∧
      k'.rest = rest := by
  induction name generalizing k text with
  | nil =>
    refine ⟨k.advance '"' rest, ?_, k.rest_advance '"' rest⟩
    rw [quotedText_mark h, List.append_nil]
  | cons c name ih =>
    rw [List.flatMap_cons, escaped] at h
    have happend : text.reverse ++ c :: name = (c :: text).reverse ++ name := by simp
    rw [happend]
    split at h
    · rw [quotedText_escape h]
      exact ih _ (rest_advance ..)
    · rename_i hc
      rw [not_or] at hc
      rw [quotedText_char h hc.1 hc.2]
      exact ih _ (rest_advance ..)

end Cursor

theorem toList_quotedName (name : String) :
    (quotedName name).toList = '"' :: (name.toList.flatMap escaped ++ ['"']) := by
  have hchar : ∀ c : Char,
      (if c = '"' ∨ c = '\\' then "\\" ++ c.toString else c.toString).toList = escaped c := by
    intro c
    unfold escaped
    split <;> simp
  have hjoin : ∀ list : List Char, (String.join (list.map fun c =>
      if c = '"' ∨ c = '\\' then "\\" ++ c.toString else c.toString)).toList =
        list.flatMap escaped := by
    intro list
    rw [String.toList_join, List.flatMap_map]
    exact congrArg (list.flatMap ·) (funext hchar)
  rw [quotedName, String.toList_append, String.toList_append, hjoin]
  rfl

theorem scans_quotedName (name : String) (rest : List Char) :
    Scans ((quotedName name).toList ++ rest) (.quoted name) rest := by
  intro k hk
  rw [toList_quotedName, List.cons_append, List.append_assoc, List.singleton_append] at hk
  obtain ⟨k', hread, hrest⟩ := Cursor.quotedText_name name.toList rest []
    (k.rest_advance '"' _)
  refine ⟨k.position, k', ?_, hrest⟩
  rw [Cursor.scan, Cursor.skipBlanks_of_not_blank hk (by decide)]
  simp only [hk]
  rw [hread]
  simp

/-! ## Tokens in order -/

namespace Cursor

theorem length_skipBlanks_le (k : Cursor) : k.skipBlanks.rest.length ≤ k.rest.length := by
  fun_induction skipBlanks k with
  | case1 => exact Nat.le_refl _
  | case2 line column c rest hblank ih =>
    rw [rest_advance] at ih
    exact Nat.le_succ_of_le ih
  | case3 => exact Nat.le_refl _

theorem length_quotedText_le (k : Cursor) (text : List Char) :
    (k.quotedText text).2.rest.length ≤ k.rest.length := by
  fun_induction quotedText k text with
  | case1 => exact Nat.le_refl _
  | case2 => simp only [rest_advance, List.length_cons, Nat.le_add_right]
  | case3 => simp only [rest_advance, List.length_cons, Nat.le_add_right]
  | case4 text line column c rest ih | case5 text line column c rest _ _ ih =>
    rw [rest_advance] at ih
    exact Nat.le_trans ih (by simp only [List.length_cons]; omega)

theorem length_wordText_le (k : Cursor) : k.wordText.2.rest.length ≤ k.rest.length :=
  (List.dropWhile_sublist _).length_le

/-- To read a token is to read one character at least. -/
theorem length_scan_lt {k k' : Cursor} {token : Token × Position}
    (h : k.scan = (.ok (some token), k')) : k'.rest.length < k.rest.length := by
  refine Nat.lt_of_lt_of_le ?_ k.length_skipBlanks_le
  rw [scan] at h
  dsimp only at h
  generalize k.skipBlanks = k₁ at h ⊢
  split at h
  · cases h
  · rename_i c rest hrest
    rw [hrest]
    refine Nat.lt_succ_of_le ?_
    rw [← k₁.rest_advance c rest]
    split at h
    any_goals
      cases h
      exact Nat.le_refl _
    · split at h <;> rename_i heq <;> cases h
      exact (congrArg (·.2.rest.length) heq) ▸ length_quotedText_le _ []
    · cases h
      exact length_wordText_le _

end Cursor

namespace Scanner

/-- Reads the tokens one by one and comes from the first place to the second. -/
inductive Yields : Scanner → List Token → Scanner → Prop
  | nil (s : Scanner) : Yields s [] s
  | cons {s s₁ s' : Scanner} {token : Token} {position : Position} {tokens : List Token}
    (h : s.next = (.ok (some (token, position)), s₁)) (rest : Yields s₁ tokens s') :
    Yields s (token :: tokens) s'

section Yields

variable {s s₁ s' : Scanner} {token : Token} {tokens tokens' : List Token}

theorem yields_nil_iff : Yields s [] s' ↔ s' = s :=
  ⟨fun h => by cases h; rfl, fun h => h ▸ .nil s⟩

theorem yields_cons_iff : Yields s (token :: tokens) s' ↔
    ∃ position s₁, s.next = (.ok (some (token, position)), s₁) ∧ Yields s₁ tokens s' :=
  ⟨fun h => by cases h with | cons hnext hrest => exact ⟨_, _, hnext, hrest⟩,
    fun ⟨_, _, hnext, hrest⟩ => .cons hnext hrest⟩

theorem yields_singleton_iff :
    Yields s [token] s' ↔ ∃ position, s.next = (.ok (some (token, position)), s') := by
  simp [yields_cons_iff, yields_nil_iff]

theorem Yields.append (h : Yields s tokens s₁) (h' : Yields s₁ tokens' s') :
    Yields s (tokens ++ tokens') s' := by
  induction h with
  | nil => exact h'
  | cons hnext _ ih => exact .cons hnext (ih h')

theorem yields_append_iff (tokens : List Token) :
    Yields s (tokens ++ tokens') s' ↔ ∃ s₁, Yields s tokens s₁ ∧ Yields s₁ tokens' s' := by
  refine ⟨fun h => ?_, fun ⟨_, h, h'⟩ => h.append h'⟩
  induction tokens generalizing s with
  | nil => exact ⟨s, .nil s, h⟩
  | cons token tokens ih =>
    obtain ⟨position, s₀, hnext, hrest⟩ := yields_cons_iff.1 h
    obtain ⟨s₁, hfirst, hsecond⟩ := ih hrest
    exact ⟨s₁, .cons hnext hfirst, hsecond⟩

instance decidableYields (s : Scanner) (tokens : List Token) :
    Decidable (∃ s', Yields s tokens s') :=
  match tokens with
  | [] => isTrue ⟨s, .nil s⟩
  | token :: tokens =>
    have := decidableYields s.next.2 tokens
    decidable_of_iff (s.next.1.toOption.join.map Prod.fst = some token ∧
      ∃ s', Yields s.next.2 tokens s') <| by
        rcases hnext : s.next with ⟨_ | _ | ⟨token', position⟩, s₁⟩ <;>
          simp [yields_cons_iff, hnext, Except.toOption]

/-- Where nothing was looked at ahead the next token is scanned. -/
theorem scan_of_next {found : Except SyntaxError Found} (hahead : s.ahead = none)
    (h : s.next = (found, s₁)) : s.cursor.scan = (found, s₁.cursor) ∧ s₁.ahead = none := by
  obtain ⟨cursor, ahead⟩ := s
  obtain rfl : ahead = none := hahead
  simp only [next] at h
  obtain ⟨hfound, rfl⟩ := Prod.mk.inj h
  exact ⟨Prod.ext hfound rfl, rfl⟩

theorem exists_yields_of_scans {cs rest : List Char} (hahead : s.ahead = none)
    (hcs : s.cursor.rest = cs) (h : Scans cs token rest) :
    ∃ s', s.Yields [token] s' ∧ s'.ahead = none ∧ s'.cursor.rest = rest := by
  obtain ⟨cursor, ahead⟩ := s
  obtain rfl : ahead = none := hahead
  obtain ⟨position, cursor', hscan, hrest⟩ := h cursor hcs
  exact ⟨⟨cursor', none⟩, yields_singleton_iff.2 ⟨position, by simp only [next, hscan]⟩, rfl, hrest⟩

/-- No more tokens are read than characters are left, or one more that was looked at ahead. -/
theorem Yields.length_le (h : Yields s tokens s') : tokens.length ≤ s.bound := by
  suffices tokens.length ≤ s.cursor.rest.length + s.ahead.toList.length by
    refine Nat.le_trans this (Nat.add_le_add_left ?_ _)
    cases s.ahead <;> simp
  induction h with
  | nil => exact Nat.zero_le _
  | cons hnext _ ih =>
    rename_i s s₁ s' token position tokens _
    obtain ⟨cursor, ahead⟩ := s
    rw [List.length_cons]
    cases ahead with
    | some found =>
      cases hnext
      simpa using ih
    | none =>
      have hscan := scan_of_next rfl hnext
      have hlt := Cursor.length_scan_lt hscan.1
      rw [hscan.2] at ih
      exact Nat.succ_le_of_lt (Nat.lt_of_le_of_lt ih hlt)

end Yields

end Scanner

end FeatureLogic.Notation
