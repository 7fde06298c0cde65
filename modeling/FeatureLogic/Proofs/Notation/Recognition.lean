import FeatureLogic.Proofs.Notation.Phrase
import FeatureLogic.Proofs.Notation.Scanning

/-!
Recognition: what each turn of the reader takes from the tokens (`Reading.Reads`), and that tokens
which are read to the end begin with a phrase (`Reading.exists_demands`).
-/

namespace FeatureLogic.Notation

namespace Reading

variable {names : NameTable} {r r' : Reading} {tasks : List ReadTask}

/-- What a turn reads, and what it makes of the state. -/
inductive Reads (names : NameTable) (r : Reading) :
    ReadTask → List Token → Reading → List ReadTask → Prop
  | opened : Reads names r .whole [.openBracket] r.newNode [.type r.graph.size]
  | known {n : Nat} {node : NodeId} (h : r.corefs[n]? = some node) :
    Reads names r .whole [.hash, .number n] { r with value := node } []
  | numbered {n : Nat} (h : r.corefs[n]? = none) :
    Reads names r .whole [.hash, .number n, .openBracket] (r.newNode.define n r.graph.size)
      [.type r.graph.size]
  | typed {node : NodeId} (mark : TypeMark) :
    Reads names r (.type node) [mark.token]
      { r with
        graph := r.graph.setType node (mark.resolve r.lattice).1
        lattice := (mark.resolve r.lattice).2 }
      [.features node]
  | closed {node : NodeId} :
    Reads names r (.features node) [.closeBracket] { r with value := node } []
  | feature {node : NodeId} (mark : FeatureMark names) :
    Reads names r (.features node) [mark.token] r
      [.whole, .attach node mark.feature, .features node]
  | attached {node : NodeId} {feature : FeatureId} :
    Reads names r (.attach node feature) []
      { r with graph := r.graph.putEdge node feature r.value } []

section Turns

open Scanner

variable {expected : String} {token : Token} {tokens : List Token} {position : Position}
  {scanner : Scanner} {node : NodeId}
  {k : Reading → Token → Position → Turn Reading ReadTask SyntaxError}

theorem take_of_next (h : r.scanner.next = (.ok (some (token, position)), scanner)) :
    r.take expected k = k { r with scanner } token position := by
  obtain ⟨graph, lattice, scanner₀, corefs, value⟩ := r
  simp only [take, h]

theorem exists_of_take (h : r.take expected k = .next r' tasks) : ∃ token position scanner,
    r.scanner.next = (.ok (some (token, position)), scanner) ∧
      k { r with scanner } token position = .next r' tasks := by
  obtain ⟨graph, lattice, scanner₀, corefs, value⟩ := r
  simp only [take] at h
  split at h
  · cases h
  · cases h
  · rename_i token position heq
    exact ⟨token, position, _, Prod.ext heq rfl, h⟩

/-- The turn goes on after reading the tokens. -/
theorem Reads.turn_eq {task : ReadTask} {r₁ : Reading} (h : Reads names r task tokens r₁ tasks)
    (hs : r.scanner.Yields tokens scanner) :
    turn names r task = .next { r₁ with scanner } tasks := by
  cases h with
  | opened =>
    obtain ⟨_, hnext⟩ := yields_singleton_iff.1 hs
    rw [turn, readStructure, take_of_next hnext]
    rfl
  | known hknown =>
    obtain ⟨_, _, hnext, hs⟩ := yields_cons_iff.1 hs
    obtain ⟨_, hnext'⟩ := yields_singleton_iff.1 hs
    rw [turn, readStructure, take_of_next hnext]
    dsimp only
    rw [take_of_next hnext']
    simp only [hknown]
  | numbered hnew =>
    obtain ⟨_, _, hnext, hs⟩ := yields_cons_iff.1 hs
    obtain ⟨_, _, hnext', hs⟩ := yields_cons_iff.1 hs
    obtain ⟨_, hnext''⟩ := yields_singleton_iff.1 hs
    rw [turn, readStructure, take_of_next hnext]
    dsimp only
    rw [take_of_next hnext']
    simp only [hnew, take, newNode, define, hnext'']
  | typed mark =>
    obtain ⟨_, hnext⟩ := yields_singleton_iff.1 hs
    rw [turn, readType, take_of_next hnext]
    cases mark <;> rfl
  | closed =>
    obtain ⟨_, hnext⟩ := yields_singleton_iff.1 hs
    rw [turn, readFeature, take_of_next hnext]
  | feature mark =>
    obtain ⟨_, hnext⟩ := yields_singleton_iff.1 hs
    rw [turn, readFeature, take_of_next hnext]
    cases mark with
    | number feature => exact if_pos feature.isLt
    | word name feature hknown => simp only [FeatureMark.token, hknown]; rfl
  | attached =>
    obtain rfl := yields_nil_iff.1 hs
    rfl

theorem exists_of_readStructure (h : r.readStructure = .next r' tasks) : ∃ tokens r₁ scanner,
    Reads names r .whole tokens r₁ tasks ∧ r.scanner.Yields tokens scanner ∧
      r' = { r₁ with scanner } := by
  rw [readStructure] at h
  obtain ⟨token, _, scanner, hnext, h⟩ := exists_of_take h
  cases token with
  | openBracket =>
    cases h
    exact ⟨_, _, scanner, .opened, .cons hnext (.nil _), rfl⟩
  | hash =>
    obtain ⟨token, _, scanner', hnext', h⟩ := exists_of_take h
    cases token with
    | number n =>
      dsimp only at h
      split at h
      · rename_i node hknown
        cases h
        exact ⟨_, _, scanner', .known hknown, .cons hnext (.cons hnext' (.nil _)), rfl⟩
      · rename_i hnew
        obtain ⟨token, _, scanner'', hnext'', h⟩ := exists_of_take h
        cases token with
        | openBracket =>
          cases h
          exact ⟨_, _, scanner'', .numbered hnew,
            .cons hnext (.cons hnext' (.cons hnext'' (.nil _))), rfl⟩
        | _ => cases h
    | _ => cases h
  | _ => cases h

theorem exists_of_readType (h : r.readType node = .next r' tasks) : ∃ tokens r₁ scanner,
    Reads names r (.type node) tokens r₁ tasks ∧ r.scanner.Yields tokens scanner ∧
      r' = { r₁ with scanner } := by
  rw [readType] at h
  obtain ⟨token, _, scanner, hnext, h⟩ := exists_of_take h
  cases token with
  | number n =>
    cases h
    exact ⟨_, _, scanner, .typed (.number n), .cons hnext (.nil _), rfl⟩
  | word name =>
    cases h
    exact ⟨_, _, scanner, .typed (.word name), .cons hnext (.nil _), rfl⟩
  | quoted name =>
    cases h
    exact ⟨_, _, scanner, .typed (.quoted name), .cons hnext (.nil _), rfl⟩
  | _ => cases h

theorem exists_of_readFeature (h : r.readFeature names node = .next r' tasks) :
    ∃ tokens r₁ scanner, Reads names r (.features node) tokens r₁ tasks ∧
      r.scanner.Yields tokens scanner ∧ r' = { r₁ with scanner } := by
  rw [readFeature] at h
  obtain ⟨token, _, scanner, hnext, h⟩ := exists_of_take h
  cases token with
  | closeBracket =>
    cases h
    exact ⟨_, _, scanner, .closed, .cons hnext (.nil _), rfl⟩
  | number n =>
    dsimp only at h
    split at h
    · rename_i hn
      cases h
      exact ⟨_, _, scanner, .feature (.number ⟨n, hn⟩), .cons hnext (.nil _), rfl⟩
    · cases h
  | word name =>
    dsimp only at h
    split at h
    · rename_i feature hknown
      cases h
      exact ⟨_, _, scanner, .feature (.word name feature hknown), .cons hnext (.nil _), rfl⟩
    · cases h
  | _ => cases h

/-- A turn that goes on has read tokens. -/
theorem exists_of_turn {task : ReadTask} (h : turn names r task = .next r' tasks) :
    ∃ tokens r₁ scanner, Reads names r task tokens r₁ tasks ∧
      r.scanner.Yields tokens scanner ∧ r' = { r₁ with scanner } := by
  cases task with
  | whole => exact exists_of_readStructure h
  | type node => exact exists_of_readType h
  | features node => exact exists_of_readFeature h
  | attach node feature =>
    cases h
    exact ⟨_, _, r.scanner, .attached, .nil _, rfl⟩

end Turns

/-! ## What is read is a phrase -/

/-- What the tasks need the tokens to be, when the numbers `seen` have come up. -/
def Demands (names : NameTable) : List ReadTask → (Nat → Prop) → List Token → Prop
  | [], _, tokens => tokens = []
  | .whole :: rest, seen, tokens => ∃ (p : Phrase names) (more : List Token),
    tokens = p.tokens ++ more ∧ Numbered seen p.mentions ∧
      Demands names rest (Mentioned seen p.mentions) more
  | .type _ :: rest, seen, tokens =>
    ∃ (type : TypeMark) (pairs : Pairs names) (more : List Token),
      tokens = type.token :: (pairs.tokens ++ .closeBracket :: more) ∧
        Numbered seen pairs.mentions ∧ Demands names rest (Mentioned seen pairs.mentions) more
  | .features _ :: rest, seen, tokens => ∃ (pairs : Pairs names) (more : List Token),
    tokens = pairs.tokens ++ .closeBracket :: more ∧ Numbered seen pairs.mentions ∧
      Demands names rest (Mentioned seen pairs.mentions) more
  | .attach _ _ :: rest, seen, tokens => Demands names rest seen tokens

/-- The number of a coreference that is known. -/
def Known (r : Reading) (n : Nat) : Prop := n ∈ r.corefs

theorem known_define (r : Reading) (n : Nat) (node : NodeId) :
    (r.define n node).Known = fun m => m = n ∨ r.Known m := by
  funext m
  refine propext ?_
  simp only [Known, define, Std.HashMap.mem_insert, beq_iff_eq]
  rw [eq_comm]

theorem Reads.demands {r r₁ : Reading} {task : ReadTask} {tokens more : List Token}
    {tasks waiting : List ReadTask} (h : Reads names r task tokens r₁ tasks)
    (hd : Demands names (tasks ++ waiting) r₁.Known more) :
    Demands names (task :: waiting) r.Known (tokens ++ more) := by
  cases h with
  | opened =>
    obtain ⟨type, pairs, more, rfl, hnumbered, hd⟩ := hd
    exact ⟨.bracket none type pairs, more, by simp [Phrase.tokens], hnumbered, hd⟩
  | @known n node hknown =>
    have hn : r.Known n := Std.HashMap.mem_iff_isSome_getElem?.2 (by simp [hknown])
    -- a number that was known makes no more of them known
    have hsame : (fun m => m = n ∨ r.Known m) = r.Known :=
      funext fun m => propext ⟨fun hm => hm.elim (· ▸ hn) id, .inr⟩
    refine ⟨.again n, more, rfl, ⟨by simp [hn], trivial⟩, ?_⟩
    show Demands names waiting (fun m => m = n ∨ r.Known m) more
    rw [hsame]
    exact hd
  | @numbered n hnew =>
    have hn : ¬ r.Known n := fun hn => by
      have := Std.HashMap.mem_iff_isSome_getElem?.1 hn
      rw [hnew] at this
      cases this
    rw [known_define] at hd
    obtain ⟨type, pairs, more, rfl, hnumbered, hd⟩ := hd
    exact ⟨.bracket (some n) type pairs, more, by simp [Phrase.tokens],
      ⟨by simpa using hn, hnumbered⟩, hd⟩
  | typed mark =>
    obtain ⟨pairs, more, rfl, hnumbered, hd⟩ := hd
    exact ⟨mark, pairs, more, rfl, hnumbered, hd⟩
  | closed => exact ⟨.nil, more, rfl, trivial, hd⟩
  | feature mark =>
    obtain ⟨value, _, rfl, hvalue, pairs, more, rfl, hpairs, hd⟩ := hd
    refine ⟨.cons mark value pairs, more, by simp [Pairs.tokens],
      numbered_append.2 ⟨hvalue, hpairs⟩, ?_⟩
    rw [Pairs.mentions, mentioned_append]
    exact hd
  | attached => exact hd

/-- A walk that comes to its end has read what its tasks demand. -/
theorem exists_demands {fuel : Nat} {r r' : Reading} {tasks : List ReadTask}
    (h : Agenda.run (turn names) fuel r tasks = .done r') : ∃ tokens scanner,
    r.scanner.Yields tokens scanner ∧ Demands names tasks r.Known tokens := by
  induction fuel generalizing r tasks with
  | zero =>
    cases tasks with
    | nil => exact ⟨[], r.scanner, .nil _, rfl⟩
    | cons task waiting => cases h
  | succ fuel ih =>
    cases tasks with
    | nil => exact ⟨[], r.scanner, .nil _, rfl⟩
    | cons task waiting =>
      cases ht : turn names r task with
      | next r₁ more =>
        rw [Agenda.run_cons_next ht] at h
        obtain ⟨tokens, r₂, scanner, hreads, hyields, rfl⟩ := exists_of_turn ht
        obtain ⟨tokens', scanner', hyields', hd⟩ := ih h
        exact ⟨tokens ++ tokens', scanner', hyields.append hyields', hreads.demands hd⟩
      | halt r₁ e =>
        rw [Agenda.run_cons_halt ht] at h
        cases h

end Reading

end FeatureLogic.Notation
