import FeatureLogic.Proofs.Notation.Scanning

/-!
Looking ahead. To look at a token and to read it afterwards is to read it (`Scanner.next_peek`), but
to look at an unterminated text is to read it already (`Scanner.peek_of_error`). So looking ahead
changes no later answer, except that the error of an unterminated text is given once
(`Scanner.answers_eq_due_iff`).
-/

namespace FeatureLogic.Notation

/-! ## Unterminated texts -/

namespace Cursor

/-- A text without a closing mark goes on to the end. -/
theorem rest_of_quotedText_none {k k' : Cursor} {text : List Char}
    (h : k.quotedText text = (none, k')) : k'.rest = [] := by
  fun_induction quotedText k text with
  | case1 =>
    cases h
    rfl
  | case2 => cases h
  | case3 =>
    cases h
    exact rest_advance ..
  | case4 _ _ _ _ _ ih => exact ih h
  | case5 _ _ _ _ _ _ _ ih => exact ih h

/-- What cannot be read goes on to the end. -/
theorem rest_of_scan_error {k k' : Cursor} {e : SyntaxError} (h : k.scan = (.error e, k')) :
    k'.rest = [] := by
  rw [scan] at h
  dsimp only at h
  generalize k.skipBlanks = k₁ at h
  split at h
  · cases h
  · split at h
    case h_6 =>
      split at h
      · cases h
      · rename_i hquoted
        cases h
        exact rest_of_quotedText_none hquoted
    all_goals cases h

end Cursor

namespace Scanner

/-! ## One look -/

/-- Nothing was looked at ahead and nothing is left to be read. -/
structure AtEnd (s : Scanner) : Prop where
  ahead : s.ahead = none
  rest : s.cursor.rest = []

theorem AtEnd.next {s : Scanner} (h : s.AtEnd) : s.next = (.ok none, s) := by
  obtain ⟨cursor, ahead⟩ := s
  obtain ⟨rfl, hrest⟩ := h
  simp [Scanner.next, scan_nil hrest]

section Look

variable {s : Scanner} {e : SyntaxError}

/-- A look answers what reading would. -/
theorem peek_fst (s : Scanner) : s.peek.1 = s.next.1 := by
  obtain ⟨cursor, ahead⟩ := s
  cases ahead with
  | some found => rfl
  | none =>
    simp only [peek, next]
    split <;> rename_i heq <;> rw [heq]

/-- After a look at a token, or at the end, it is read as if it had not been looked at. -/
theorem next_peek {found : Found} (h : s.next.1 = .ok found) : s.peek.2.next = s.next := by
  obtain ⟨cursor, ahead⟩ := s
  cases ahead with
  | some found => rfl
  | none =>
    obtain ⟨cursor', hscan⟩ : ∃ cursor', cursor.scan = (.ok found, cursor') := ⟨_, Prod.ext h rfl⟩
    simp [peek, next, hscan]

/-- To look at an unterminated text is to read it. -/
theorem peek_of_error (h : s.next.1 = .error e) : s.peek = s.next := by
  obtain ⟨cursor, ahead⟩ := s
  cases ahead with
  | some found => cases h
  | none =>
    obtain ⟨cursor', hscan⟩ : ∃ cursor', cursor.scan = (.error e, cursor') := ⟨_, Prod.ext h rfl⟩
    simp [peek, next, hscan]

/-- Behind an unterminated text there is nothing left. -/
theorem atEnd_of_error (h : s.next.1 = .error e) : s.next.2.AtEnd := by
  obtain ⟨cursor, ahead⟩ := s
  cases ahead with
  | some found => cases h
  | none => exact ⟨rfl, Cursor.rest_of_scan_error (Prod.ext h rfl)⟩

end Look

/-! ## Calls one after the other -/

/-- What is asked of a scanner. -/
inductive Call
  | peek
  | next
  deriving DecidableEq

/-- The answer to a call, and the scanner after it. -/
def call (s : Scanner) : Call → Except SyntaxError Found × Scanner
  | .peek => s.peek
  | .next => s.next

/-- The answers to calls one after the other. -/
def answers : List Call → Scanner → List (Except SyntaxError Found)
  | [], _ => []
  | c :: calls, s => (s.call c).1 :: answers calls (s.call c).2

/-- The answers where a look answers what reading would and changes nothing. -/
def due : List Call → Scanner → List (Except SyntaxError Found)
  | [], _ => []
  | .peek :: calls, s => s.next.1 :: due calls s
  | .next :: calls, s => s.next.1 :: due calls s.next.2

/-- Of the answers to calls those to the readings. -/
def readings (calls : List Call) (answers : List (Except SyntaxError Found)) :
    List (Except SyntaxError Found) :=
  ((calls.zip answers).filter fun p => p.1 = .next).map Prod.snd

/-- The scanner after a number of readings. -/
def readOn : Nat → Scanner → Scanner
  | 0, s => s
  | n + 1, s => readOn n s.next.2

/-- Where reading alone would be after the calls there is an unterminated text. -/
def Fails (s : Scanner) (calls : List Call) : Prop :=
  ∃ e, (readOn (calls.count .next) s).next.1 = .error e

/-- A look at an unterminated text has calls after it. -/
def Loses (s : Scanner) (calls : List Call) : Prop :=
  ∃ before after, calls = before ++ .peek :: after ∧ after ≠ [] ∧ s.Fails before

section Calls

variable {s t : Scanner} {e : SyntaxError} {calls : List Call}

/-- Scanners that read alike answer alike. -/
theorem answers_congr (h : s.next = t.next) : answers calls s = answers calls t := by
  induction calls generalizing s t with
  | nil => rfl
  | cons c calls ih =>
    cases c with
    | next =>
      show s.next.1 :: answers calls s.next.2 = t.next.1 :: answers calls t.next.2
      rw [h]
    | peek =>
      show s.peek.1 :: answers calls s.peek.2 = t.peek.1 :: answers calls t.peek.2
      have hanswer : s.peek.1 = t.peek.1 := by rw [peek_fst, peek_fst, h]
      cases hs : s.next.1 with
      | error e =>
        have ht : t.next.1 = .error e := by rw [← h, hs]
        rw [peek_of_error hs, peek_of_error ht, h]
      | ok found =>
        have ht : t.next.1 = .ok found := by rw [← h, hs]
        have hnext : s.peek.2.next = t.peek.2.next := by rw [next_peek hs, next_peek ht, h]
        rw [hanswer, ih hnext]

theorem answers_peek_of_ok {found : Found} (h : s.next.1 = .ok found) :
    answers (.peek :: calls) s = s.next.1 :: answers calls s := by
  show s.peek.1 :: answers calls s.peek.2 = _
  rw [peek_fst, answers_congr (next_peek h)]

/-- At the end every call finds the end. -/
theorem AtEnd.answers (h : s.AtEnd) : answers calls s = calls.map fun _ => .ok none := by
  have hnext := h.next
  induction calls with
  | nil => rfl
  | cons c calls ih =>
    cases c with
    | next =>
      show s.next.1 :: Scanner.answers calls s.next.2 = _
      rw [hnext, ih]
      rfl
    | peek =>
      have hok : s.next.1 = .ok none := by rw [hnext]
      rw [answers_peek_of_ok hok, hok, ih]
      rfl

/-- After a look at an unterminated text every call finds the end. -/
theorem answers_peek_of_error (h : s.next.1 = .error e) :
    answers (.peek :: calls) s = .error e :: calls.map fun _ => .ok none := by
  show s.peek.1 :: answers calls s.peek.2 = _
  rw [peek_of_error h, (atEnd_of_error h).answers, h]

theorem fails_next : s.Fails (.next :: calls) ↔ s.next.2.Fails calls := by
  simp [Fails, readOn]

theorem fails_peek : s.Fails (.peek :: calls) ↔ s.Fails calls := by
  simp [Fails]

theorem loses_next : s.Loses (.next :: calls) ↔ s.next.2.Loses calls := by
  constructor
  · rintro ⟨before, after, heq, hafter, hfails⟩
    cases before with
    | nil => cases heq
    | cons c before =>
      cases heq
      exact ⟨before, after, rfl, hafter, fails_next.1 hfails⟩
  · rintro ⟨before, after, rfl, hafter, hfails⟩
    exact ⟨.next :: before, after, rfl, hafter, fails_next.2 hfails⟩

theorem loses_peek : s.Loses (.peek :: calls) ↔ (s.Fails [] ∧ calls ≠ []) ∨ s.Loses calls := by
  constructor
  · rintro ⟨before, after, heq, hafter, hfails⟩
    cases before with
    | nil =>
      cases heq
      exact .inl ⟨hfails, hafter⟩
    | cons c before =>
      cases heq
      exact .inr ⟨before, after, rfl, hafter, fails_peek.1 hfails⟩
  · rintro (⟨hfails, hcalls⟩ | ⟨before, after, rfl, hafter, hfails⟩)
    · exact ⟨[], calls, rfl, hcalls, hfails⟩
    · exact ⟨.peek :: before, after, rfl, hafter, fails_peek.2 hfails⟩

/-- Calls that come after a look at an unterminated text are not answered as they should be. -/
theorem answers_peek_eq_due_iff (h : s.next.1 = .error e) :
    answers (.peek :: calls) s = due (.peek :: calls) s ↔ calls = [] := by
  rw [answers_peek_of_error h, due, h]
  cases calls with
  | nil => simp [due]
  | cons c calls => cases c <;> simp [due, h]

theorem answers_eq_due_iff_not_loses :
    answers calls s = due calls s ↔ ¬ s.Loses calls := by
  induction calls generalizing s with
  | nil => simp [answers, due, Loses]
  | cons c calls ih =>
    cases c with
    | next =>
      show s.next.1 :: answers calls s.next.2 = s.next.1 :: due calls s.next.2 ↔ _
      rw [List.cons_inj_right, ih, loses_next]
    | peek =>
      cases hs : s.next.1 with
      | ok found =>
        have hfails : ¬ s.Fails [] := by
          rintro ⟨e, he⟩
          exact absurd (hs.symm.trans he) (by simp)
        rw [answers_peek_of_ok hs, due, List.cons_inj_right, ih, loses_peek]
        simp [hfails]
      | error e =>
        rw [answers_peek_eq_due_iff hs, loses_peek]
        have hfails : s.Fails [] := ⟨e, hs⟩
        cases calls with
        | nil => simp [Loses]
        | cons c calls => simp [hfails]

/-- Among answers that are as they should be those to the readings are those of reading alone. -/
theorem readings_due (calls : List Call) (s : Scanner) :
    readings calls (due calls s) = answers (List.replicate (calls.count .next) .next) s := by
  induction calls generalizing s with
  | nil => rfl
  | cons c calls ih =>
    cases c with
    | peek => simpa [readings, due] using ih s
    | next => simpa [readings, due, List.replicate_succ, answers, call] using ih s.next.2

theorem answers_append_of_fails {before after : List Call} (h : s.Fails before) :
    answers (before ++ .peek :: after) s =
      answers (before ++ [.peek]) s ++ after.map fun _ => .ok none := by
  induction before generalizing s with
  | nil =>
    obtain ⟨e, he⟩ := h
    simp [answers_peek_of_error (s := s) he]
  | cons c before ih =>
    cases c with
    | next =>
      have hrest := ih (fails_next.1 h)
      simp only [List.cons_append, answers, call, hrest]
    | peek =>
      cases hs : s.next.1 with
      | ok found =>
        have hrest := ih (fails_peek.1 h)
        simp only [List.cons_append, answers_peek_of_ok hs, hrest]
      | error e =>
        simp [answers_peek_of_error hs]

end Calls

/-- Whatever is asked of a scanner, at whatever place, a look answers what the next reading would
and the readings answer what they would without the looks, just when no call comes after a look at
an unterminated text. From such a look on every call finds the end of the text. -/
theorem answers_eq_due_iff (s : Scanner) (calls : List Call) :
    (answers calls s = due calls s ↔ ¬ s.Loses calls) ∧
    readings calls (due calls s) = answers (List.replicate (calls.count .next) .next) s ∧
    ∀ before after, calls = before ++ .peek :: after → s.Fails before →
      answers calls s = answers (before ++ [.peek]) s ++ after.map fun _ => .ok none := by
  refine ⟨answers_eq_due_iff_not_loses, readings_due calls s, ?_⟩
  rintro before after rfl hfails
  exact answers_append_of_fails hfails

/-- In a text that breaks off a bracket and an unterminated text are looked at, each before it is
read: the bracket is read as it was seen, and the unterminated text is lost. -/
theorem answers_eq_due_iff_broken :
    let calls := [Call.peek, .next, .peek, .next]
    ¬ (answers calls (start "[ \"x") = due calls (start "[ \"x")) ∧
    (start "[ \"x").Loses calls ∧
    answers calls (start "[ \"x") =
      answers [.peek, .next, .peek] (start "[ \"x") ++ [.ok none] := by
  have hfails : (start "[ \"x").Fails [.peek, .next] :=
    ⟨.unterminatedString ⟨1, 3⟩, by decide +kernel⟩
  have hloses : (start "[ \"x").Loses [.peek, .next, .peek, .next] :=
    ⟨[.peek, .next], [.next], rfl, by simp, hfails⟩
  obtain ⟨hiff, -, hafter⟩ := answers_eq_due_iff (start "[ \"x") [.peek, .next, .peek, .next]
  exact ⟨fun h => hiff.1 h hloses, hloses, hafter [.peek, .next] [.next] rfl hfails⟩

/-- Readings are not always what they would be without the looks: a text without its closing mark is
looked at and then read, the look answers that it is unterminated, and the reading finds the end. -/
theorem not_forall_readings_answers :
    ¬ ∀ (text : String) (calls : List Call), readings calls (answers calls (start text)) =
      answers (List.replicate (calls.count .next) .next) (start text) := by
  intro h
  have hlooked : answers [.peek, .next] (start "\"abc") =
      [.error (.unterminatedString ⟨1, 1⟩), .ok none] := by decide +kernel
  have halone : answers [.next] (start "\"abc") = [.error (.unterminatedString ⟨1, 1⟩)] := by
    decide +kernel
  have hread := h "\"abc" [.peek, .next]
  rw [hlooked] at hread
  have hlost : [Except.ok none] = answers [.next] (start "\"abc") := hread
  rw [halone] at hlost
  cases hlost

end Scanner

end FeatureLogic.Notation
