import FeatureLogic.Grammar.Description
import FeatureLogic.Proofs.Notation.Parsing
import FeatureLogic.Proofs.Session.Sound

/-!
Building grammars. Whatever is added to a sound grammar under construction, it stays sound, also
where a step fails half-way. So every grammar that can be read from a description is sound
(`Grammar.sound_read`).
-/

namespace FeatureLogic

namespace GrammarDraft

/-- What holds of a grammar under construction. -/
structure Sound (d : GrammarDraft) : Prop where
  lattice : d.lattice.Sound
  prototypes : d.prototypes.Sound
  root_lt : ∀ {t : TypeId} {root : NodeId}, d.roots[t]? = some root → root < d.prototypes.size
  possible : ∀ n : Nat, d.prototypes.type n ≠ .bottom

theorem sound_ofLattice {l : Lattice} (hl : l.Sound) : (ofLattice l).Sound where
  lattice := hl
  prototypes := Graph.sound_empty
  root_lt h := by simp [ofLattice] at h
  possible n := by
    show Graph.empty.type n ≠ .bottom
    rw [Graph.type_of_le (Nat.zero_le n)]
    exact nofun

namespace Sound

variable {d : GrammarDraft} (h : d.Sound)
include h

theorem build : d.build.Sound := ⟨h.lattice, h.prototypes, h.root_lt, h.possible⟩

theorem addFeature (name : String) : (d.addFeature name).Sound :=
  ⟨h.lattice, h.prototypes, h.root_lt, h.possible⟩

theorem withLattice {l : Lattice} (hl : l.Sound) : { d with lattice := l }.Sound :=
  ⟨hl, h.prototypes, h.root_lt, h.possible⟩

theorem setPrototype (type text : String) : (setPrototype type text d).2.Sound := by
  unfold GrammarDraft.setPrototype
  have hadds := Notation.adds_parse d.features d.lattice d.prototypes text
  obtain ⟨hlattice, -⟩ := Notation.sound_parse d.features h.lattice d.prototypes text
  split
  · exact h
  · -- the draft once the text was read, whether or not a structure came of it
    have hread : GrammarDraft.Sound { d with
        prototypes := (Notation.parse d.features d.lattice d.prototypes text).graph
        lattice := (Notation.parse d.features d.lattice d.prototypes text).lattice } := by
      refine ⟨hlattice, hadds.added.sound h.prototypes, fun hroot => ?_, fun n => ?_⟩
      · exact Nat.lt_of_lt_of_le (h.root_lt hroot) hadds.added.grown.size_le
      · rcases Nat.lt_or_ge n d.prototypes.size with hn | hn
        · exact hadds.added.grown.graph_extends.type_eq hn ▸ h.possible n
        · exact hadds.possible hn
    dsimp only
    split
    · exact hread
    · rename_i root hroot
      split
      · refine ⟨hread.lattice, hread.prototypes, fun {t r} hr => ?_, hread.possible⟩
        rw [Std.TreeMap.getElem?_insert] at hr
        split at hr
        · cases hr
          exact (hadds.value hroot).2
        · exact hread.root_lt hr
      · exact hread

theorem readAside (text : String) : (d.readAside text).2.Sound := by
  have hread := h.withLattice (Notation.sound_parse d.features h.lattice .empty text).1
  unfold GrammarDraft.readAside
  dsimp only
  split <;> exact hread

theorem setQuickCheckPaths (paths : List (List String)) : (setQuickCheckPaths paths d).2.Sound := by
  unfold GrammarDraft.setQuickCheckPaths
  split
  · exact h
  · exact ⟨h.lattice, h.prototypes, h.root_lt, h.possible⟩

theorem setQuickCheckText (text : String) : (setQuickCheckText text d).2.Sound := by
  have hread := h.readAside text
  unfold GrammarDraft.setQuickCheckText
  split <;> rename_i heq <;> rw [heq] at hread
  · exact hread
  · split
    · exact hread
    · exact ⟨hread.lattice, hread.prototypes, hread.root_lt, hread.possible⟩

theorem setIntroducer (feature type : String) : (setIntroducer feature type d).2.Sound := by
  unfold GrammarDraft.setIntroducer
  split
  · exact h
  · exact h
  · exact ⟨h.lattice, h.prototypes, h.root_lt, h.possible⟩

theorem addDeleted (names : List String) : (addDeleted names d).2.Sound := by
  induction names generalizing d with
  | nil => exact h
  | cons name rest ih =>
    unfold GrammarDraft.addDeleted
    split
    · exact h
    · exact ih ⟨h.lattice, h.prototypes, h.root_lt, h.possible⟩

theorem setRules (text : String) : (setRules text d).2.Sound := by
  have hread := h.readAside text
  unfold GrammarDraft.setRules
  split <;> rename_i heq <;> rw [heq] at hread
  · exact hread
  · split
    · exact hread
    · exact ⟨hread.lattice, hread.prototypes, hread.root_lt, hread.possible⟩

theorem steps {steps : List Step} (hsteps : ∀ step ∈ steps, ∀ {d}, d.Sound → (step d).2.Sound)
    {d' : GrammarDraft} (heq : d.steps steps = .ok d') : d'.Sound := by
  induction steps generalizing d with
  | nil =>
    cases heq
    exact h
  | cons step rest ih =>
    have hstep := hsteps step (List.mem_cons_self ..) h
    unfold GrammarDraft.steps at heq
    split at heq <;> rename_i hrun <;> rw [hrun] at hstep
    · exact ih hstep (fun step hmem => hsteps step (List.mem_cons_of_mem _ hmem)) heq
    · cases heq

end Sound

end GrammarDraft

/-- All that a description asks for keeps a grammar under construction sound. -/
theorem Description.sound_of_mem_steps {d : Description} {step : GrammarDraft.Step}
    (hstep : step ∈ d.steps) {draft : GrammarDraft} (h : draft.Sound) : (step draft).2.Sound := by
  simp only [Description.steps, List.mem_append, List.mem_map, List.mem_singleton] at hstep
  rcases hstep with (((⟨⟨type, text⟩, -, rfl⟩ | hstep) | ⟨⟨feature, type⟩, -, rfl⟩) | rfl) |
    ⟨text, -, rfl⟩
  · exact h.setPrototype type text
  · split at hstep
    · cases hstep
    · rw [List.mem_singleton.1 hstep]
      exact h.setQuickCheckPaths _
  · exact h.setIntroducer feature type
  · exact h.addDeleted _
  · exact h.setRules text

namespace Grammar

theorem sound_ofDescription {d : Description} {g : Grammar} (h : ofDescription d = .ok g) :
    g.Sound := by
  simp only [ofDescription, bind, Except.bind, pure, Except.pure] at h
  cases hd : Declarations.initial.declareAll d.types with
  | error e => simp [hd] at h
  | ok declarations =>
    cases hl : Lattice.ofDeclarations declarations with
    | error e => simp [hd, hl] at h
    | ok lattice =>
      simp only [hd, hl] at h
      have hlattice := GrammarDraft.sound_ofLattice (Lattice.sound_of_declarations hd hl)
      have hfeatures : (d.features.foldl GrammarDraft.addFeature (.ofLattice lattice)).Sound :=
        List.foldlRecOn d.features _ hlattice fun _ hdraft name _ => hdraft.addFeature name
      split at h
      · cases h
      · rename_i draft hsteps
        cases h
        exact (hfeatures.steps (fun _ hstep => Description.sound_of_mem_steps hstep) hsteps).build

/-- Every grammar that can be read is sound. -/
theorem sound_read {bytes : List UInt8} {g : Grammar} (h : read bytes = .ok g) : g.Sound := by
  unfold read at h
  split at h
  · exact sound_ofDescription h
  · cases h

end Grammar

end FeatureLogic
