import Mathlib.Data.List.Permutation
import FeatureLogic.Proofs.Graph.Committed
import FeatureLogic.Proofs.Session.Sound

/-!
Grammars and sessions written down node by node, over a small hierarchy in which two types have a
subtype in common. They show that the hypotheses of laws can be met, and that a law needs them.
-/

namespace FeatureLogic

deriving instance DecidableEq for Draft

namespace Sample

/-! ## A lattice -/

/-- Two types with a common subtype, which has a leaf type below it. -/
def types : List (String × List String) := [("a", []), ("b", []), ("c", ["a", "b"]), ("d", ["c"])]

/-- The draft of the types once it is closed. -/
def draft : Draft where
  names := #["*top*", "a", "b", "c", "d"]
  parents := #[[], [0], [0], [1, 2], [3]]
  children := #[[1, 2], [3], [3], [4], []]
  leaf := #[false, false, false, false, true]

/-- The hierarchy of the types, which keep the order in which they are declared. -/
def hierarchy : Hierarchy where
  names := .ofList ["*top*", "a", "b", "c", "d"]
  codes := #[⟨4, 15⟩, ⟨4, 10⟩, ⟨4, 12⟩, ⟨4, 8⟩]
  parents := #[[], [0], [0], [1, 2], [3]]
  children := #[[1, 2], [3], [3], [4], []]
  depths := #[0, 1, 1, 2, 3]

/-- The lattice of the types, after an atom came up; `d` is type 4 and the atom type 5. -/
def lattice : Lattice := ⟨hierarchy, .ofList ["x"], {}⟩

theorem draft_ok : ((Declarations.initial.declareAll types).bind Draft.ofDeclarations).bind
    (fun d => d.ordering.bind fun order => ((d.markLeaves order).close order).bind fun d =>
      d.ordering.map fun order => (d, order)) = .ok (draft, [0, 1, 2, 3, 4]) := by
  decide +kernel

theorem ofDraft_draft : Hierarchy.ofDraft draft [0, 1, 2, 3, 4] = hierarchy := by cbv

theorem exists_of_bind {ε α β : Type} {x : Except ε α} {f : α → Except ε β} {y : β}
    (h : x.bind f = .ok y) : ∃ a, x = .ok a ∧ f a = .ok y := by
  cases x with
  | error e => cases h
  | ok a => exact ⟨a, rfl, h⟩

theorem sound_lattice : lattice.Sound := by
  obtain ⟨d₀, hdraft, h⟩ := exists_of_bind draft_ok
  obtain ⟨d, hd, hdraft⟩ := exists_of_bind hdraft
  obtain ⟨order, horder, h⟩ := exists_of_bind h
  obtain ⟨closed, hclosed, h⟩ := exists_of_bind h
  cases horder' : closed.ordering with
  | error e =>
    rw [horder'] at h
    cases h
  | ok order' =>
    simp only [horder', Except.map, Except.ok.injEq, Prod.mk.injEq] at h
    obtain ⟨rfl, rfl⟩ := h
    have hbuilt : Lattice.Sound ⟨hierarchy, .empty, {}⟩ := Lattice.sound_of_declarations hd ?_
    · exact ⟨hbuilt.hierarchy, hbuilt.known⟩
    simp only [Lattice.ofDeclarations, Hierarchy.ofDeclarations, hdraft, horder, hclosed, horder',
      bind, Except.bind, Except.map, pure, Except.pure, ofDraft_draft]

theorem size_hierarchy : hierarchy.size = 5 := by decide +kernel

/-- The subtypes of a declared type are found among the declared types. -/
theorem eq_of_le {m : Nat} {u : TypeId} (hm : 0 < m) (h : hierarchy.Le u (.of m)) :
    u = .bottom ∨ u = .of m ∨ ∃ n < 5, u = .of n ∧ lattice.glb (.of m) (.of n) = .of n := by
  have hs : hierarchy.Sound := sound_lattice.hierarchy
  cases u with
  | bottom => exact .inl rfl
  | of n =>
    refine .inr ?_
    rcases Nat.lt_or_ge n 5 with hn | hn
    · exact .inr ⟨n, hn, rfl, (Lattice.glb_eq_right_iff hs).2 h⟩
    · -- an atom is below itself and the universal type only
      rcases h with rfl | h
      · exact absurd hm (Nat.lt_irrefl 0)
      · exact .inl (congrArg TypeId.of (hs.eq_of_atom_below (size_hierarchy ▸ hn) h))

/-! ## Grammars and sessions -/

/-- Nodes with edges in order, to nodes of the list. -/
abbrev Listed (nodes : List (TypeId × List Edge)) : Prop :=
  ∀ p ∈ nodes, p.2.Pairwise (fun d e => d.feature < e.feature) ∧ ∀ e ∈ p.2, e.target < nodes.length

/-- The grammar with two features and the given prototypes. -/
def grammar (prototypes : List (TypeId × List Edge)) (roots : List (TypeId × NodeId)) : Grammar :=
  { (default : Grammar) with
    lattice := lattice
    features := .ofList ["F", "G"]
    prototypes := .ofNodes prototypes
    roots := .ofList roots _ }

/-- A session in which nothing has happened yet. -/
def session (g : Grammar) (nodes : List (TypeId × List Edge)) : Session := ⟨g, .ofNodes nodes, none⟩

theorem mem_roots {g : Grammar} {t : TypeId} {root : NodeId}
    (h : g.featuredPrototype? t = some root) : (t, root) ∈ g.roots.toList :=
  Std.TreeMap.mem_toList_iff_getElem?_eq_some.2 (Grammar.roots_of_featuredPrototype? h).1

theorem sound_grammar {prototypes : List (TypeId × List Edge)} {roots : List (TypeId × NodeId)}
    (hlisted : Listed prototypes) (htype : ∀ p ∈ prototypes, p.1 ≠ .bottom)
    (hroots : ∀ p ∈ (grammar prototypes roots).roots.toList, p.2 < prototypes.length) :
    (grammar prototypes roots).Sound where
  lattice := sound_lattice
  prototypes := (Graph.sound_ofNodes hlisted).1
  root_lt h := by
    refine Nat.lt_of_lt_of_eq (hroots _ (Std.TreeMap.mem_toList_iff_getElem?_eq_some.2 h)) ?_
    exact (Graph.size_ofNodes prototypes).symm
  possible n := by
    obtain ⟨type, edges, hn, hmem⟩ := Graph.node_ofNodes prototypes n
    show ((Graph.ofNodes prototypes).node n).type ≠ .bottom
    rw [hn]
    rcases hmem with hmem | ⟨rfl, -⟩
    · exact htype _ hmem
    · exact TypeId.noConfusion

theorem sound_grammar_nil : (grammar [] []).Sound :=
  sound_grammar (by decide) (by decide) (by decide)

theorem sound_session {g : Grammar} (hg : g.Sound) {nodes : List (TypeId × List Edge)}
    (hlisted : Listed nodes) : (session g nodes).Sound ∧ (session g nodes).AtRest :=
  ⟨⟨hg, (Graph.sound_ofNodes hlisted).1⟩, (Graph.sound_ofNodes hlisted).2⟩

end Sample

end FeatureLogic
