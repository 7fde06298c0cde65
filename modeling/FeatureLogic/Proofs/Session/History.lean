import FeatureLogic.Proofs.Session.Orderly
import FeatureLogic.Proofs.Session.Printed
import FeatureLogic.Proofs.Session.Surveys
import FeatureLogic.Proofs.Unify.Alike

/-!
History. What operations tell about two nodes depends on the committed structure below them and on
nothing else: not on the numbers of the nodes, the episodes before, the notes that these left behind
or what the lattice was asked (`Session.sameAnswers_of_isomorphic`). Only the names of types are
told by what has been read so far (`Session.print_named_ne`).
-/

namespace FeatureLogic

theorem Notation.typeText_congr {l l' : Lattice} (horder : l'.hierarchy = l.hierarchy) {t : TypeId}
    (hname : l'.typeName? t = l.typeName? t) : typeText l' t = typeText l t := by
  have hcount : l'.typeCount = l.typeCount := congrArg Hierarchy.size horder
  have hatom : l'.isAtom t = l.isAtom t := by
    cases t with
    | bottom => rfl
    | of n =>
      show decide (l'.typeCount ≤ n) = decide (l.typeCount ≤ n)
      rw [hcount]
  rw [typeText, typeText, hname, hatom]

namespace Session

/-- All that can be asked about two nodes of one session has the answers that it has for two nodes
of the other, with results that differ in the numbers of their nodes at most. -/
structure SameAnswers (s : Session) (a b : NodeId) (t : Session) (a' b' : NodeId) : Prop where
  unifyInto : ∀ budget r, Option.Rel (fun p q => Option.Rel
      (fun n m => p.2.graph.layout.Isomorphic n q.2.graph.layout m) p.1 q.1)
    (s.unifyInto budget a b r) (t.unifyInto budget a' b' r)
  unifiable : ∀ budget,
    (s.unifiable budget a b).map Prod.fst = (t.unifiable budget a' b').map Prod.fst
  subsumes : (s.subsumes a b).1 = (t.subsumes a' b').1
  relate : (s.relate a b).1 = (t.relate a' b').1
  equal : (s.equal a b).1 = (t.equal a' b').1
  cyclic : (s.cyclic a).1 = (t.cyclic a').1
  shared : (s.sharedCount a).1 = (t.sharedCount a').1
  rigid : (s.rigidCount a).1 = (t.rigidCount a').1
  /-- The text is the same where the types below the node have the same names, or none. -/
  print : (∀ n, s.graph.layout.Reach a n →
      t.grammar.lattice.typeName? (s.graph.type n) = s.grammar.lattice.typeName? (s.graph.type n)) →
    t.print a' = s.print a

/-- Two sessions on one grammar, whatever has happened in each of them, answer alike about
structures that differ in the numbers of their nodes only, when no episode is open. -/
theorem sameAnswers_of_isomorphic {g : Grammar} (hg : g.Sound) {s t : Session} (hs : s.Arises)
    (ht : t.Arises) (hsg : g.Learned s.grammar) (htg : g.Learned t.grammar) (hr : s.AtRest)
    (hr' : t.AtRest) {a b a' b' : Nat} (ha : a < s.graph.size) (hb : b < s.graph.size)
    (ha' : a' < t.graph.size) (hb' : b' < t.graph.size)
    (h : s.graph.layout.JointlyIsomorphic a b t.graph.layout a' b') :
    s.SameAnswers a b t a' b' := by
  have hlinked := hs.closed.graph
  have hlinked' := ht.closed.graph
  have hsame : s.grammar.Same t.grammar := (hsg.same hg).symm.trans (htg.same hg)
  obtain ⟨ρ, hρa, hρb, hgraph⟩ :=
    Graph.exists_alike hlinked.edgesLead hlinked'.edgesLead hr hr' ha hb ha' hb' h
  have halike : s.Corresponds ρ t := ⟨hg.learned hsg, hg.learned htg, hsame, hgraph⟩
  refine {
    unifyInto := fun budget r => unifyInto_alike halike hlinked hlinked' hρa hρb budget r
    unifiable := fun budget => unifiable_eq halike hlinked hlinked' hρa hρb budget
    subsumes := subsumes_eq halike hlinked.edgesLead hlinked'.edgesLead hρa hρb
    relate := relate_eq_of_corresponds halike hlinked.edgesLead hlinked'.edgesLead hr hr' hρa hρb
    equal := equal_eq hgraph hlinked.edgesLead hlinked'.edgesLead hρa hρb
    cyclic := cyclic_eq hgraph hlinked hlinked' hρa
    shared := countRepeated_eq hgraph hlinked hlinked' Nat.one_pos hρa
    rigid := countRepeated_eq hgraph hlinked hlinked' Nat.two_pos hρa
    print := fun hnames => ?_ }
  have hview := Graph.AtRest.view_eq_layout hr
  have hroot := Graph.AtRest.deref_eq hr a
  obtain ⟨μ, htwins⟩ :=
    exists_twins hlinked hlinked' ha ha' (hgraph.isomorphic_view hlinked hlinked' hρa)
  refine htwins.print_eq (by rw [htg.eq, hsg.eq]) fun n hn => ?_
  rw [hview, hroot] at hn
  rw [Graph.AtRest.currentType_eq hr]
  exact Notation.typeText_congr hsame.hierarchy_eq (hnames n hn)

/-- The node with two features for one value is told alike in a session in which it was unified with
another one, in an episode that was given up, and in one in which nothing has happened. -/
theorem sameAnswers_of_isomorphic_knotted : knotted.graph.forward? 2 = some 0 ∧
    knotted.invalidate.Arises ∧ doubled.Arises ∧ knotted.invalidate.AtRest ∧ doubled.AtRest ∧
    knotted.invalidate.graph.layout.JointlyIsomorphic 2 3 doubled.graph.layout 1 0 ∧
    knotted.invalidate.SameAnswers 2 3 doubled 1 0 := by
  have hknotted : knotted.invalidate.Orderly (Sample.grammar [] []) :=
    orderly_knotted.move (m := .invalidate) ⟨nofun, trivial⟩ trivial rfl
  have hdoubled : doubled.Arises ∧ (Sample.grammar [] []).Learned doubled.grammar :=
    ⟨arises_doubled, .refl _⟩
  have hrest : knotted.invalidate.AtRest ∧ doubled.AtRest :=
    ⟨orderly_knotted.entangled.linked.stamped.invalidate.2,
      Graph.atRest_of_forall_lt (by decide) (by decide)⟩
  have hiso : knotted.invalidate.graph.layout.JointlyIsomorphic 2 3 doubled.graph.layout 1 0 :=
    Layout.jointlyIsomorphic_of_below [2, 3] (3 - ·) (by decide) (by decide) (by decide +kernel)
      (by decide) (by decide +kernel)
  exact ⟨by decide +kernel, hknotted.arises, arises_doubled, hrest.1, hrest.2, hiso,
    sameAnswers_of_isomorphic Sample.sound_grammar_nil hknotted.arises arises_doubled
      hknotted.kept.2.2 hdoubled.2 hrest.1 hrest.2 (by decide +kernel) (by decide +kernel)
      (by decide) (by decide) hiso⟩

/-- A node whose type is the first number that no type has. -/
def unnamed : Session := (ofGrammar (Sample.grammar [] [])).mapGraph (·.add (.of 6) [])

/-- A new atom is read, which gets the number. -/
def named : Session := (unnamed.parse "[\"y\"]").2

/-- A node of a type that has no name yet is printed by number, and by name as soon as an atom has
got the number, though nothing about the node has changed. -/
theorem print_named_ne : (Sample.grammar [] []).Sound ∧ unnamed.Arises ∧ named.Arises ∧
    (Sample.grammar [] []).Learned unnamed.grammar ∧
    (Sample.grammar [] []).Learned named.grammar ∧ unnamed.AtRest ∧ named.AtRest ∧
    unnamed.graph.layout.JointlyIsomorphic 0 0 named.graph.layout 0 0 ∧
    unnamed.print 0 ≠ named.print 0 := by
  have hunnamed : unnamed.Orderly (Sample.grammar [] []) :=
    (Orderly.start Sample.sound_grammar_nil.rooted).add (.of 6)
  have hnamed : named.Orderly (Sample.grammar [] []) :=
    hunnamed.move (m := .parse "[\"y\"]") ⟨nofun, trivial⟩ trivial rfl
  have hiso : unnamed.graph.layout.JointlyIsomorphic 0 0 named.graph.layout 0 0 :=
    Layout.jointlyIsomorphic_of_below [0] id (by decide) (by decide) (by decide +kernel) (by decide)
      (by decide +kernel)
  exact ⟨Sample.sound_grammar_nil, hunnamed.arises, hnamed.arises, hunnamed.kept.2.2,
    hnamed.kept.2.2, Graph.atRest_of_forall_lt (by decide) (by decide),
    Graph.atRest_of_forall_lt (by decide +kernel) (by decide +kernel), hiso, by decide +kernel⟩

end Session

end FeatureLogic
