import FeatureLogic.Session.Basic
import FeatureLogic.Proofs.Graph.Notes
import FeatureLogic.Proofs.Lattice.Knowledge

/-!
Sound sessions. What holds of every session between two operations, and what an operation may have
added (`Session.Later`).
-/

namespace FeatureLogic

/-- What holds of every grammar: its lattice answers truly, prototypes lie in their graph, and no
node of theirs has an impossible type. -/
structure Grammar.Sound (g : Grammar) : Prop where
  lattice : g.lattice.Sound
  prototypes : g.prototypes.Sound
  root_lt : ∀ {t : TypeId} {root : NodeId}, g.roots[t]? = some root → root < g.prototypes.size
  possible : ∀ n : Nat, g.prototypes.type n ≠ .bottom

namespace Grammar

/-- The order of the types of the grammar. -/
abbrev hierarchy (g : Grammar) : Hierarchy := g.lattice.hierarchy

theorem roots_of_featuredPrototype? {g : Grammar} {t : TypeId} {root : NodeId}
    (h : g.featuredPrototype? t = some root) :
    g.roots[t]? = some root ∧ g.prototypes.edges root ≠ [] := by
  unfold featuredPrototype? at h
  cases hr : g.roots[t]? with
  | none =>
    rw [hr] at h
    cases h
  | some r =>
    rw [hr] at h
    simp only at h
    split at h
    · cases h
    · rename_i hne
      cases h
      exact ⟨rfl, by simpa using hne⟩

/-- The two grammars differ in what their lattices know at most. -/
structure Same (g g' : Grammar) : Prop where
  hierarchy_eq : g'.hierarchy = g.hierarchy
  prototypes_eq : g'.prototypes = g.prototypes
  roots_eq : g'.roots = g.roots

theorem Same.refl (g : Grammar) : g.Same g := ⟨rfl, rfl, rfl⟩

theorem Same.trans {g₁ g₂ g₃ : Grammar} (h : g₁.Same g₂) (h' : g₂.Same g₃) : g₁.Same g₃ :=
  ⟨h'.1.trans h.1, h'.2.trans h.2, h'.3.trans h.3⟩

theorem Same.featuredPrototype? {g g' : Grammar} (h : g.Same g') (t : TypeId) :
    g'.featuredPrototype? t = g.featuredPrototype? t := by
  unfold Grammar.featuredPrototype?
  rw [h.prototypes_eq, h.roots_eq]

/-- The two grammars differ in their lattices at most, and what was learned is true. -/
structure Learned (g g' : Grammar) : Prop where
  eq : g' = { g with lattice := g'.lattice }
  sound : g.lattice.Sound → g'.lattice.Sound ∧ g'.hierarchy = g.hierarchy

theorem Learned.refl (g : Grammar) : g.Learned g := ⟨rfl, fun h => ⟨h, rfl⟩⟩

theorem Learned.trans {g₁ g₂ g₃ : Grammar} (h : g₁.Learned g₂) (h' : g₂.Learned g₃) :
    g₁.Learned g₃ where
  eq := by
    rw [h'.eq, h.eq]
  sound hl :=
    have h₂ := h.sound hl
    have h₃ := h'.sound h₂.1
    ⟨h₃.1, h₃.2.trans h₂.2⟩

/-- A question to the lattice that it answers truly. -/
theorem learned_of_lattice (g : Grammar) {l : Lattice}
    (h : g.lattice.Sound → l.Sound ∧ l.hierarchy = g.hierarchy) :
    g.Learned { g with lattice := l } :=
  ⟨rfl, h⟩

section Learned

variable {g g' : Grammar} (h : g.Learned g')
include h

theorem Learned.same (hg : g.Sound) : g.Same g' := by
  refine ⟨(h.sound hg.lattice).2, ?_, ?_⟩ <;> rw [h.eq]

theorem Learned.quickCheck_eq : g'.quickCheck = g.quickCheck := by rw [h.eq]

theorem Sound.learned (hg : g.Sound) : g'.Sound := by
  have hl := (h.sound hg.lattice).1
  rw [h.eq]
  exact ⟨hl, hg.prototypes, hg.root_lt, hg.possible⟩

end Learned

end Grammar

namespace Session

/-- What holds of every session. -/
structure Sound (s : Session) : Prop where
  grammar : s.grammar.Sound
  graph : s.graph.Sound

/-- No episode is open. -/
def AtRest (s : Session) : Prop := s.graph.AtRest

/-- The order of the types. -/
abbrev hierarchy (s : Session) : Hierarchy := s.grammar.hierarchy

/-- The committed structure of a session. -/
abbrev shape (s : Session) : Shape := s.graph.shape

/-- The second session has what the first one has, and maybe more nodes and knowledge. -/
structure Later (s s' : Session) : Prop where
  grammar : s.grammar.Same s'.grammar
  graph : s.graph.Extends s'.graph

theorem Later.trans {s₁ s₂ s₃ : Session} (h : s₁.Later s₂) (h' : s₂.Later s₃) : s₁.Later s₃ :=
  ⟨h.grammar.trans h'.grammar, h.graph.trans h'.graph⟩

/-! ## Questions to the lattice -/

section Ask

variable {s : Session} (hs : s.grammar.Sound)

theorem same_ask_unify (s : Session) (t u : TypeId) :
    s.grammar.Same (s.ask fun l => l.unify t u).2.grammar :=
  ⟨s.grammar.lattice.hierarchy_unify t u, rfl, rfl⟩

theorem same_ask_subsumes (s : Session) (t u : TypeId) :
    s.grammar.Same (s.ask fun l => l.subsumes t u).2.grammar :=
  ⟨s.grammar.lattice.hierarchy_subsumes t u, rfl, rfl⟩

include hs

theorem sound_ask_unify (t u : TypeId) : (s.ask fun l => l.unify t u).2.grammar.Sound :=
  ⟨hs.lattice.unify t u, hs.prototypes, hs.root_lt, hs.possible⟩

theorem sound_ask_subsumes (t u : TypeId) : (s.ask fun l => l.subsumes t u).2.grammar.Sound :=
  ⟨hs.lattice.subsumes t u, hs.prototypes, hs.root_lt, hs.possible⟩

end Ask

end Session

end FeatureLogic
