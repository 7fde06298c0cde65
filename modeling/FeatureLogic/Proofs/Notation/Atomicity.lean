import FeatureLogic.Proofs.Notation.Denotation

/-!
Reading is all or nothing. A structure that cannot be read leaves the graph as it was, and its
numbers mean nothing to what is read next; a structure that is read has new nodes only
(`Notation.read_atomic`).
-/

namespace FeatureLogic.Notation

/-! ## What is read next -/

/-- What comes next in a text is read by itself. It must begin with a phrase in which every number
comes up with its bracket first, and each such phrase is read as what it denotes. -/
structure ReadsAfresh (names : NameTable) (l : Lattice) (g : Graph) (s : Scanner) : Prop where
  phrase : ∀ {node : NodeId}, (read names l g s).outcome = .ok node →
    ∃ (p : Phrase names) (s' : Scanner), p.WellNumbered ∧ s.Yields p.tokens s'
  denotes : ∀ {p : Phrase names} {s' : Scanner}, p.WellNumbered → s.Yields p.tokens s' →
    ∃ g', read names l g s = ⟨.ok g.size, g', taught l p.drawing, s'⟩ ∧
      (p.shape l).Isomorphic 0 g'.shape g.size

theorem readsAfresh (names : NameTable) (l : Lattice) (g : Graph) (s : Scanner) :
    ReadsAfresh names l g s :=
  ⟨exists_phrase_of_read, exists_read⟩

/-- Where a structure cannot be read, at whatever depth and after whatever numbers, the graph is as
before with all its notes, and the text that is left is read by itself. Where one is read, what was
in the graph is unchanged, and whatever is below the structure's root is new. -/
theorem read_atomic (names : NameTable) (l : Lattice) (g : Graph) (s : Scanner) :
    (∀ e, (read names l g s).outcome = .error e → (read names l g s).graph = g ∧
      ReadsAfresh names (read names l g s).lattice g (read names l g s).scanner) ∧
    ∀ node, (read names l g s).outcome = .ok node → g.Grown (read names l g s).graph ∧
      ∀ n : Nat, (read names l g s).graph.Below node n →
        g.size ≤ n ∧ n < (read names l g s).graph.size := by
  obtain ⟨hadds, herror⟩ := read_spec names l g s
  refine ⟨fun e he => ⟨herror e he, readsAfresh ..⟩, fun node hnode => ?_⟩
  exact ⟨hadds.added.grown, fun n hn => hadds.added.of_below (hadds.value hnode) hn⟩

/-! ## A number that comes up twice -/

/-- A word that is no feature ends the reading. -/
theorem Reading.turn_unknown {names : NameTable} {r : Reading} {name : String} {position : Position}
    {scanner : Scanner} (hnext : r.scanner.next = (.ok (some (.word name, position)), scanner))
    (hname : names.index? name = none) (node : NodeId) :
    turn names r (.features node) = .halt { r with scanner } (.unknownFeature name position) := by
  rw [turn, readFeature, take_of_next hnext]
  simp only [hname]

/-- A structure with a number and an unknown feature, and behind it that number again. -/
def broken : Scanner := .start "#1[c H #1[a]"

open FeatureLogic.Notation.Reading Scanner in
theorem exists_read_broken (g : Graph) : ∃ (position : Position) (s s' : Scanner),
    read (.ofList ["F", "G"]) Sample.lattice g broken =
      ⟨.error (.unknownFeature "H" position), g, Sample.lattice, s⟩ ∧
    s.Yields [.hash, .number 1, .openBracket, .word "a", .closeBracket] s' := by
  have hall : ∃ s', broken.Yields ([.hash, .number 1, .openBracket] ++ ([.word "c"] ++
      ([.word "H"] ++ [.hash, .number 1, .openBracket, .word "a", .closeBracket]))) s' := by
    decide +kernel
  simp only [yields_append_iff] at hall
  obtain ⟨s', s₁, hopen, s₂, htype, s, hunknown, hrest⟩ := hall
  obtain ⟨position, hnext⟩ := yields_singleton_iff.1 hunknown
  have hunused : (⟨g, Sample.lattice, broken, {}, 0⟩ : Reading).corefs[1]? = none := by simp
  have hnew : Reads (.ofList ["F", "G"]) _ _ _ _ _ := .numbered hunused
  have hrun := @Agenda.run_cons_next _ _ _ _ 44 _ _ _ _ [] (hnew.turn_eq hopen)
  rw [List.append_nil, Agenda.run_cons_next ((Reads.typed (.word "c")).turn_eq htype),
    List.append_nil, Agenda.run_cons_halt (turn_unknown hnext (by decide +kernel) _)] at hrun
  have hread : read (.ofList ["F", "G"]) Sample.lattice g broken =
      ⟨.error (.unknownFeature "H" position),
        (read (.ofList ["F", "G"]) Sample.lattice g broken).graph, Sample.lattice, s⟩ := by
    rw [read, show 3 * (broken.bound + 2) = 44 + 1 from rfl, hrun]
    rfl
  refine ⟨position, s, s', ?_, hrest⟩
  rw [hread, (read_spec ..).2 _ (congrArg ReadResult.outcome hread)]

/-- The number that came up in the structure that was given up begins a new node. -/
theorem read_atomic_broken :
    ∃ (position : Position) (s s' : Scanner) (g' : Graph),
      read (.ofList ["F", "G"]) Sample.lattice (.ofNodes [(.of 1, [⟨0, 0⟩])]) broken =
        ⟨.error (.unknownFeature "H" position), .ofNodes [(.of 1, [⟨0, 0⟩])], Sample.lattice, s⟩ ∧
      ReadsAfresh (.ofList ["F", "G"]) Sample.lattice (.ofNodes [(.of 1, [⟨0, 0⟩])]) s ∧
      read (.ofList ["F", "G"]) Sample.lattice (.ofNodes [(.of 1, [⟨0, 0⟩])]) s =
        ⟨.ok 1, g', Sample.lattice, s'⟩ ∧
      ∀ n : Nat, g'.Below 1 n → 1 ≤ n ∧ n < g'.size := by
  obtain ⟨position, s, s', hread, hs⟩ := exists_read_broken (.ofNodes [(.of 1, [⟨0, 0⟩])])
  have herror := (read_atomic (.ofList ["F", "G"]) Sample.lattice (.ofNodes [(.of 1, [⟨0, 0⟩])])
    broken).1 _ (congrArg ReadResult.outcome hread)
  rw [hread] at herror
  let p : Phrase (.ofList ["F", "G"]) := .bracket (some 1) (.word "a") .nil
  have hp : p.WellNumbered := by simp [p, Phrase.WellNumbered, Phrase.mentions, Pairs.mentions,
    Numbered]
  obtain ⟨g', hagain, -⟩ := herror.2.denotes hp hs
  have hnew := ((read_atomic _ _ _ _).2 _ (congrArg ReadResult.outcome hagain)).2
  rw [hagain] at hnew
  exact ⟨position, s, s', g', hread, herror.2, hagain, hnew⟩

end FeatureLogic.Notation
