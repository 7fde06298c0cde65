import FeatureLogic.Proofs.Notation.RoundTrip
import FeatureLogic.Proofs.Sample

/-!
Texts of sessions. What a session prints of a structure it reads as that structure, with its
coreferences and cycles and whatever the atoms are called (`Session.exists_parse_print`). A type
that has no name, as `bottom`, is lost.
-/

open Relation

namespace FeatureLogic

/-- The names of types and features are words. -/
structure Grammar.Readable (g : Grammar) : Prop where
  type : ∀ name ∈ g.hierarchy.names.toList, Notation.Readable name
  feature : ∀ name ∈ g.features.toList, Notation.Readable name

namespace Session

/-- What is below a node has types of the lattice and features of the grammar. -/
structure TypedBelow (s : Session) (x : NodeId) : Prop where
  hasType : ∀ {n}, s.current.Reach x n → s.grammar.lattice.HasType (s.current.type n)
  feature_lt : ∀ {n f m}, s.current.Reach x n → s.current.value? n f = some m →
    f < s.grammar.features.size

/-- The text of a structure is read as that structure, and nothing else changes. Node numbers fit
into 32 bits, and so do the numbers of coreferences. -/
theorem exists_parse_print {s : Session} (hs : s.graph.Entangled)
    (hatoms : s.grammar.lattice.AtomsApart) (hnames : s.grammar.Readable) {root : Nat}
    (hroot : root < s.graph.size) (hsize : s.graph.size < 2 ^ 32)
    (htyped : s.TypedBelow (s.graph.deref root)) : ∃ node s',
      s.parse (s.print root) = (.ok node, s') ∧ s'.grammar = s.grammar ∧
        s.graph.Extends s'.graph ∧ s.current.Isomorphic (s.graph.deref root) s'.shape node ∧
          (s.AtRest → s.shape.Isomorphic root s'.shape node) := by
  obtain ⟨grammar, graph, failures⟩ := s
  have hscene : (⟨graph, grammar.lattice, grammar.features,
      Notation.arrivals graph root⟩ : Notation.Scene).Legible root :=
    ⟨⟨hs.linked, hroot, rfl⟩, hs.ordered, hsize, hatoms, hnames.type, hnames.feature,
      fun hn => htyped.hasType (hs.reach_view_iff.1 hn),
      fun {n e} hn he => htyped.feature_lt (hs.reach_view_iff.1 hn) (Option.map_eq_some_iff.2
        ⟨e.target, hs.mem_currentEdges.1 he, rfl⟩)⟩
  obtain ⟨node, graph', scanner, hparse, hextends, hiso⟩ := hscene.exists_parse
  refine ⟨node, ⟨grammar, graph', failures⟩, ?_, rfl, hextends, hiso, fun hr => ?_⟩
  · simp only [parse, print, hparse]
  · have hrest : graph.AtRest := hr
    have hcurrent : graph.web.view.Isomorphic (graph.deref root) graph'.shape node := hiso
    rw [hrest.view_eq, hrest.deref_eq root] at hcurrent
    exact hcurrent

/-! ### A cycle -/

/-- The names of the sample types and features are words. -/
theorem readable_sample : (∀ name ∈ Sample.hierarchy.names.toList, Notation.Readable name) ∧
    ∀ name ∈ (NameTable.ofList ["F", "G"]).toList, Notation.Readable name := by
  decide +kernel

/-- A node whose two values are one node, which leads back to it. The types of the values are atoms
with names that are no words. -/
def tangled : Session :=
  Sample.session { Sample.grammar [] [] with
    lattice := { Sample.lattice with atoms := .ofList ["", "\"a\\ #1\n["] } }
    [(.of 3, [⟨0, 1⟩, ⟨1, 1⟩]), (.of 6, [⟨0, 0⟩, ⟨1, 2⟩]), (.of 5, [])]

example : tangled.print 0 = "#1[c F #2[\"\\\"a\\\\ #1\n[\" F #1 G[\"\"]] G #2]" := by
  decide +kernel

theorem sound_tangled : tangled.graph.Sound ∧ tangled.AtRest := Graph.sound_ofNodes (by decide)

theorem typedBelow_tangled : tangled.TypedBelow 0 := by
  have hview : tangled.current = tangled.shape := sound_tangled.2.view_eq
  have hmem : ∀ {n}, tangled.current.Reach 0 n → n ∈ [0, 1, 2] := by
    rw [hview]
    exact fun hn => sound_tangled.1.mem_of_reach [0, 1, 2] (by decide) (by decide) hn
  have htypes : ∀ n ∈ [0, 1, 2], ∃ i < tangled.grammar.lattice.typeCount +
      tangled.grammar.lattice.atomCount, tangled.current.type n = .of i := by
    decide +kernel
  have hfeatures : ∀ n ∈ [0, 1, 2], ∀ e ∈ tangled.graph.edges n,
      e.feature < tangled.grammar.features.size := by
    decide +kernel
  refine ⟨fun hn => htypes _ (hmem hn), fun {n f m} hn hf => ?_⟩
  rw [hview] at hf
  exact hfeatures n (hmem hn) ⟨f, m⟩ (sound_tangled.1.value_eq_some_iff.1 hf)

/-- The cycle is read as a cycle. -/
theorem exists_parse_print_tangled : ∃ node s', tangled.parse (tangled.print 0) = (.ok node, s') ∧
    s'.grammar = tangled.grammar ∧ tangled.shape.Isomorphic 0 s'.shape node := by
  have he : tangled.graph.Entangled := Graph.entangled_of_atRest sound_tangled.1 sound_tangled.2
  have hroot : 0 < tangled.graph.size := by decide
  obtain ⟨node, s', hparse, hgrammar, -, -, hiso⟩ := exists_parse_print he (by decide +kernel)
    ⟨readable_sample.1, readable_sample.2⟩ hroot (by decide)
    (by rw [sound_tangled.2.deref_eq]; exact typedBelow_tangled)
  exact ⟨node, s', hparse, hgrammar, hiso sound_tangled.2⟩

/-! ### What has no name -/

/-- A node of the absurd type, and one with a feature that the grammar does not have. -/
def nameless : Session :=
  Sample.session (Sample.grammar [] []) [(.bottom, []), (.top, [⟨2, 2⟩]), (.top, [])]

example : [0, 1].map nameless.print = ["[4294967295]", "[*top* 2[*top*]]"] := by decide +kernel

/-- What is printed as a number is lost: a number of no type is read as the universal type, and a
number of no feature is an error. -/
theorem not_isomorphic_nameless : nameless.Sound ∧ nameless.AtRest ∧
    nameless.grammar.lattice.AtomsApart ∧ nameless.grammar.Readable ∧ nameless.graph.size = 3 ∧
      ∀ root ∈ [0, 1], ∀ node s', nameless.parse (nameless.print root) = (.ok node, s') →
        ¬ nameless.shape.Isomorphic root s'.shape node := by
  have hg : (Sample.grammar [] []).Sound :=
    Sample.sound_grammar (by decide) (by decide) (by decide)
  obtain ⟨hsound, hrest⟩ : nameless.Sound ∧ nameless.AtRest :=
    Sample.sound_session hg (by decide)
  refine ⟨hsound, hrest, by decide +kernel, ⟨readable_sample.1, readable_sample.2⟩, by decide,
    fun root hroot node s' hparse hiso => ?_⟩
  have hread : ∀ root ∈ [0, 1], (match nameless.parse (nameless.print root) with
      | (.ok node, s') => some (s'.graph.type node)
      | (.error _, _) => none) = if root = 0 then some .top else none := by
    decide +kernel
  have htype : some (s'.graph.type node) = if root = 0 then some .top else none := by
    have := hread root hroot
    rw [hparse] at this
    exact this
  split at htype
  · rename_i hzero
    obtain ⟨μ, rfl, -, hμ⟩ := hiso
    have hbottom : s'.graph.type (μ root) = nameless.graph.type root :=
      (hμ root ReflTransGen.refl).1
    rw [Option.some.inj htype, hzero] at hbottom
    cases hbottom
  · cases htype

end Session

end FeatureLogic
