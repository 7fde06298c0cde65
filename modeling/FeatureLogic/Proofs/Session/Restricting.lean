import FeatureLogic.Proofs.Session.Whole

/-!
Restricting. Structures that are laid out alike are copied out alike through every restrictor, turn
by turn (`Session.extract_congr`). So it makes no difference whether the result of a unification is
restricted while it is copied out, or copied out whole first and restricted when it is copied once
more (`Session.unifyInto_restricted`).
-/

open Relation

namespace FeatureLogic

namespace Edges

/-- Edges of the same features, with targets that two functions take to the same nodes. -/
theorem mapTargets_eq_iff {k k' : NodeId → NodeId} {edges edges' : List Edge} :
    mapTargets k edges = mapTargets k' edges' ↔
      List.Forall₂ (fun d e => d.feature = e.feature ∧ k d.target = k' e.target) edges edges' := by
  unfold mapTargets
  rw [← List.forall₂_eq_eq_eq, List.forall₂_map_left_iff, List.forall₂_map_right_iff]
  simp

end Edges

/-- The mark for a copy with another number. -/
def CopyMark.map (σ : NodeId → NodeId) : CopyMark → CopyMark
  | .copied k => .copied (σ k)
  | mark => mark

namespace Session

/-! ## Turns -/

section Turns

variable {r : Restrictor} {s : Session} {n : NodeId} {cursor : RestrictCursor}

theorem copyTurn_underway (hn : s.graph.copyMark (s.graph.deref n) = .underway) :
    copyTurn r s (.enter n cursor) = .halt s ⟨s.graph.deref n⟩ := by
  simp only [copyTurn, hn]

theorem copyTurn_copied {k : NodeId} (hn : s.graph.copyMark (s.graph.deref n) = .copied k) :
    copyTurn r s (.enter n cursor) = .next s [] := by
  simp only [copyTurn, hn]

theorem copyTurn_blank (hn : s.graph.copyMark (s.graph.deref n) = .blank) :
    copyTurn r s (.enter n cursor) = .next
      ((s.ask fun l => r.generalize cursor (s.graph.currentType (s.graph.deref n)) l).2.mapGraph
        (·.setCopyMark (s.graph.deref n) .underway))
      (CopyTask.asked r cursor (s.graph.deref n)
        (r.generalize cursor (s.graph.currentType (s.graph.deref n)) s.grammar.lattice).1
        ((s.graph.currentEdges (s.graph.deref n)).filter fun e => r.keeps cursor e.feature)) := by
  simp only [copyTurn, hn]
  rw [List.foldr_cons_eq_append]
  rfl

end Turns

/-! ## Copies in step -/

/-- The structure of an episode below `x` is laid out like that of another one below `y`. -/
structure Twins (s₀ : Session) (x : Nat) (t₀ : Session) (y : Nat) (μ : NodeId → NodeId) : Prop where
  linked : s₀.graph.Linked
  linked' : t₀.graph.Linked
  root_lt : x < s₀.graph.size
  root_lt' : y < t₀.graph.size
  root_eq : μ (s₀.graph.deref x) = t₀.graph.deref y
  inj : Set.InjOn μ {n | s₀.graph.view.Reach (s₀.graph.deref x) n}
  type_eq : ∀ {n}, s₀.graph.view.Reach (s₀.graph.deref x) n →
    t₀.graph.currentType (μ n) = s₀.graph.currentType n
  edges_eq : ∀ {n}, s₀.graph.view.Reach (s₀.graph.deref x) n →
    t₀.graph.view.edges (μ n) = Edges.mapTargets μ (s₀.graph.view.edges n)

theorem exists_twins {s₀ t₀ : Session} {x y : Nat} (hs : s₀.graph.Linked) (ht : t₀.graph.Linked)
    (hx : x < s₀.graph.size) (hy : y < t₀.graph.size)
    (h : s₀.graph.view.Isomorphic (s₀.graph.deref x) t₀.graph.view (t₀.graph.deref y)) :
    ∃ μ, Twins s₀ x t₀ y μ := by
  obtain ⟨μ, hroot, hinj, hμ⟩ := h
  exact ⟨μ, hs, ht, hx, hy, hroot, hinj, fun hn => (hμ _ hn).1, fun hn => (hμ _ hn).2⟩

/-- Edges of the same feature to nodes that correspond. -/
def TwinEdges (s₀ : Session) (x : NodeId) (t₀ : Session) (μ : NodeId → NodeId)
    (d e : Edge) : Prop :=
  s₀.graph.view.Reach (s₀.graph.deref x) (s₀.graph.deref d.target) ∧ d.feature = e.feature ∧
    μ (s₀.graph.deref d.target) = t₀.graph.deref e.target

/-- Tasks of the same kind about nodes that correspond. -/
inductive TwinTasks (s₀ : Session) (x : NodeId) (t₀ : Session) (μ : NodeId → NodeId) :
    CopyTask → CopyTask → Prop
  | enter {n m : NodeId} {cursor : RestrictCursor}
    (hn : s₀.graph.view.Reach (s₀.graph.deref x) (s₀.graph.deref n))
    (hm : μ (s₀.graph.deref n) = t₀.graph.deref m) :
    TwinTasks s₀ x t₀ μ (.enter n cursor) (.enter m cursor)
  | finish {n : NodeId} {type : TypeId} {kept kept' : List Edge}
    (hn : s₀.graph.view.Reach (s₀.graph.deref x) n)
    (hkept : List.Forall₂ (TwinEdges s₀ x t₀ μ) kept kept') :
    TwinTasks s₀ x t₀ μ (.finish n type kept) (.finish (μ n) type kept')

/-- The new node of the second copy that corresponds to one of the first. -/
def counterpart (s₀ t₀ : Session) (k : Nat) : Nat := k - s₀.graph.size + t₀.graph.size

theorem counterpart_inj {s₀ t₀ : Session} {k m : Nat} (hk : s₀.graph.size ≤ k)
    (hm : s₀.graph.size ≤ m) (h : counterpart s₀ t₀ k = counterpart s₀ t₀ m) : k = m := by
  unfold counterpart at h
  omega

/-- What holds between two turns of copying structures that are laid out alike. -/
structure Twinned (r : Restrictor) (s₀ : Session) (x : Nat) (t₀ : Session) (y : Nat)
    (μ : NodeId → NodeId) (s : Session) (tasks : List CopyTask) (t : Session)
    (tasks' : List CopyTask) : Prop where
  left : Extracting r s₀ x s tasks
  right : Extracting r t₀ y t tasks'
  akin : s.grammar.lattice.Akin t.grammar.lattice
  tasks : List.Forall₂ (TwinTasks s₀ x t₀ μ) tasks tasks'
  size_eq : t.graph.size = counterpart s₀ t₀ s.graph.size
  mark : ∀ {n}, s₀.graph.view.Reach (s₀.graph.deref x) n →
    t.graph.copyMark (μ n) = (s.graph.copyMark n).map (counterpart s₀ t₀)
  type_eq : ∀ {k : Nat}, s₀.graph.size ≤ k → k < s.graph.size →
    t.graph.type (counterpart s₀ t₀ k) = s.graph.type k
  edges_eq : ∀ {k : Nat}, s₀.graph.size ≤ k → k < s.graph.size →
    t.graph.edges (counterpart s₀ t₀ k) = Edges.mapTargets (counterpart s₀ t₀) (s.graph.edges k)

section Twins

variable {r : Restrictor} {s₀ t₀ s t : Session} {x y : Nat} {μ : NodeId → NodeId}
  {tasks tasks' : List CopyTask} (h : Twins s₀ x t₀ y μ)
include h

/-- Nodes that correspond have edges that do. -/
theorem Twins.currentEdges {n : NodeId} (hn : s₀.graph.view.Reach (s₀.graph.deref x) n) :
    List.Forall₂ (TwinEdges s₀ x t₀ μ) (s₀.graph.currentEdges n) (t₀.graph.currentEdges (μ n)) := by
  refine (List.forall₂_and_left _ _).2 ⟨fun d hd => ?_, ?_⟩
  · exact hn.edge (e := ⟨d.feature, _⟩) (Edges.mem_mapTargets.2 ⟨d, hd, rfl, rfl⟩)
  · have hedges := h.edges_eq hn
    simp only [Graph.view, Edges.mapTargets_mapTargets] at hedges
    exact Edges.mapTargets_eq_iff.1 hedges.symm

theorem twinned_start (hakin : s₀.grammar.lattice.Akin t₀.grammar.lattice)
    (cursor : RestrictCursor) :
    Twinned r s₀ x t₀ y μ s₀ [.enter x cursor] t₀ [.enter y cursor] where
  left := extracting_start h.linked r x cursor
  right := extracting_start h.linked' r y cursor
  akin := hakin
  tasks := .cons (.enter ReflTransGen.refl h.root_eq) .nil
  size_eq := by simp [counterpart]
  mark hn := by
    rw [h.linked.copyMark_eq, h.linked'.copyMark_eq]
    rfl
  type_eq h₁ h₂ := absurd h₁ (Nat.not_le.2 h₂)
  edges_eq h₁ h₂ := absurd h₁ (Nat.not_le.2 h₂)

/-! ### A copy is begun -/

section Enter

variable {n m : NodeId} {cursor : RestrictCursor} {waiting waiting' : List CopyTask}
  (htwin : Twinned r s₀ x t₀ y μ s (.enter n cursor :: waiting) t (.enter m cursor :: waiting'))
include htwin

/-- The nodes that the two turns are about correspond and have the same mark. -/
theorem Twinned.enter : s₀.graph.view.Reach (s₀.graph.deref x) (s₀.graph.deref n) ∧
    s.graph.deref n = s₀.graph.deref n ∧ t.graph.deref m = μ (s₀.graph.deref n) ∧
    t.graph.copyMark (t.graph.deref m) =
      (s.graph.copyMark (s.graph.deref n)).map (counterpart s₀ t₀) := by
  cases htwin.tasks with
  | cons htask _ =>
    cases htask with
    | enter hn hm =>
      have hleft := htwin.left.beside.deref_eq h.linked n
      have hright := (htwin.right.beside.deref_eq h.linked' m).trans hm.symm
      refine ⟨hn, hleft, hright, ?_⟩
      rw [hleft, hright]
      exact htwin.mark hn

omit h in
/-- Nothing is to be done for nodes that have copies. -/
theorem Twinned.pop (hleft : Extracting r s₀ x s waiting) (hright : Extracting r t₀ y t waiting') :
    Twinned r s₀ x t₀ y μ s waiting t waiting' :=
  { htwin with
    left := hleft
    right := hright
    tasks := (List.forall₂_cons.1 htwin.tasks).2 }

/-- A copy is begun on both sides, and asks for the copies of values that correspond. -/
theorem Twinned.push {s' t' : Session} {type : TypeId} {kept kept' : List Edge}
    (hbegins : s.graph.Begins (s₀.graph.deref n) s'.graph)
    (hbegins' : t.graph.Begins (μ (s₀.graph.deref n)) t'.graph)
    (hakin : s'.grammar.lattice.Akin t'.grammar.lattice)
    (hkept : List.Forall₂ (TwinEdges s₀ x t₀ μ) kept kept')
    (hleft : Extracting r s₀ x s'
      (CopyTask.asked r cursor (s₀.graph.deref n) type kept ++ waiting))
    (hright : Extracting r t₀ y t'
      (CopyTask.asked r cursor (μ (s₀.graph.deref n)) type kept' ++ waiting')) :
    Twinned r s₀ x t₀ y μ s' (CopyTask.asked r cursor (s₀.graph.deref n) type kept ++ waiting)
      t' (CopyTask.asked r cursor (μ (s₀.graph.deref n)) type kept' ++ waiting') := by
  have hn := (htwin.enter h).1
  exact {
    left := hleft
    right := hright
    akin := hakin
    tasks := by
      refine List.rel_append (List.rel_append ?_ (.cons (.finish hn hkept) .nil))
        (List.forall₂_cons.1 htwin.tasks).2
      refine List.forall₂_map_left_iff.2 (List.forall₂_map_right_iff.2 (hkept.imp ?_))
      rintro d e ⟨hd, hfeature, htarget⟩
      exact hfeature ▸ .enter hd htarget
    size_eq := by rw [hbegins.size_eq, hbegins'.size_eq, htwin.size_eq]
    mark := fun {k} hk => by
      rw [hbegins.mark, hbegins'.mark, htwin.mark hk]
      by_cases heq : s₀.graph.deref n = k
      · rw [if_pos heq, if_pos (congrArg μ heq)]
        rfl
      · rw [if_neg heq, if_neg fun hμ => heq (h.inj hn hk hμ)]
    type_eq := fun h₁ h₂ => by
      rw [hbegins.type_eq, hbegins'.type_eq]
      exact htwin.type_eq h₁ (hbegins.size_eq ▸ h₂)
    edges_eq := fun h₁ h₂ => by
      rw [hbegins.edges_eq, hbegins'.edges_eq]
      exact htwin.edges_eq h₁ (hbegins.size_eq ▸ h₂) }

end Enter

/-! ### A copy is made -/

section Finish

variable {n : NodeId} {type : TypeId} {kept kept' : List Edge} {waiting waiting' : List CopyTask}
  (htwin : Twinned r s₀ x t₀ y μ s (.finish n type kept :: waiting) t
    (.finish (μ n) type kept' :: waiting'))
include htwin

/-- The copies of values that correspond do so too. -/
theorem Twinned.copies_eq (hkept : List.Forall₂ (TwinEdges s₀ x t₀ μ) kept kept') :
    Edges.mapTargets (copyOf t.graph) kept' =
      Edges.mapTargets (counterpart s₀ t₀) (Edges.mapTargets (copyOf s.graph) kept) := by
  rw [Edges.mapTargets_mapTargets]
  refine (Edges.mapTargets_eq_iff.2 ?_).symm
  have hvalues : ∀ d ∈ kept,
      s.graph.copyMark (s₀.graph.deref d.target) = .copied (copyOf s.graph d.target) :=
    fun d hd => htwin.left.values h.linked hd
  refine ((List.forall₂_and_left _ _).2 ⟨hvalues, hkept⟩).imp ?_
  rintro d e ⟨hd, hreach, hfeature, htarget⟩
  refine ⟨hfeature, (copyOf_of_copied ?_).symm⟩
  rw [htwin.right.beside.deref_eq h.linked', ← htarget, htwin.mark hreach, hd]
  rfl

/-- Both sides get a copy of the same type with edges that correspond. -/
theorem Twinned.finished {s' t' : Session} (hn : s₀.graph.view.Reach (s₀.graph.deref x) n)
    (hkept : List.Forall₂ (TwinEdges s₀ x t₀ μ) kept kept')
    (hgains : s.graph.GainsCopy n type (Edges.mapTargets (copyOf s.graph) kept) s'.graph)
    (hgains' : t.graph.GainsCopy (μ n) type (Edges.mapTargets (copyOf t.graph) kept') t'.graph)
    (hakin : s'.grammar.lattice.Akin t'.grammar.lattice)
    (hleft : Extracting r s₀ x s' waiting) (hright : Extracting r t₀ y t' waiting') :
    Twinned r s₀ x t₀ y μ s' waiting t' waiting' := by
  have hsize := htwin.size_eq
  have hold := htwin.left.beside.extends_start.size_le
  have hne : ∀ {k : Nat}, s₀.graph.size ≤ k → k ≠ s.graph.size →
      counterpart s₀ t₀ k ≠ t.graph.size := by
    intro k hk hne heq
    exact hne (counterpart_inj hk hold (heq.trans hsize))
  exact {
    left := hleft
    right := hright
    akin := hakin
    tasks := (List.forall₂_cons.1 htwin.tasks).2
    size_eq := by
      rw [hgains.size_eq, hgains'.size_eq, hsize]
      unfold counterpart
      omega
    mark := fun {k} hk => by
      rw [hgains.mark, hgains'.mark, htwin.mark hk]
      by_cases heq : n = k
      · rw [if_pos heq, if_pos (congrArg μ heq), hsize]
        rfl
      · rw [if_neg heq, if_neg fun hμ => heq (h.inj hn hk hμ)]
    type_eq := fun {k} h₁ h₂ => by
      rw [hgains.type_eq, hgains'.type_eq]
      by_cases heq : k = s.graph.size
      · rw [if_pos heq, if_pos (by rw [heq, hsize])]
      · rw [if_neg heq, if_neg (hne h₁ heq)]
        exact htwin.type_eq h₁ (by have := hgains.size_eq; omega)
    edges_eq := fun {k} h₁ h₂ => by
      rw [hgains.edges_eq, hgains'.edges_eq]
      by_cases heq : k = s.graph.size
      · rw [if_pos heq, if_pos (by rw [heq, hsize]), htwin.copies_eq h hkept]
      · rw [if_neg heq, if_neg (hne h₁ heq)]
        exact htwin.edges_eq h₁ (by have := hgains.size_eq; omega) }

end Finish

/-! ### The whole walk -/

/-- A turn that begins a copy begins one of the same type on both sides. -/
theorem twinned_blank {n m : NodeId} {cursor : RestrictCursor} {waiting waiting' : List CopyTask}
    (htwin : Twinned r s₀ x t₀ y μ s (.enter n cursor :: waiting) t (.enter m cursor :: waiting'))
    (hs : s.graph.copyMark (s.graph.deref n) = .blank)
    (ht : t.graph.copyMark (t.graph.deref m) = .blank) :
    Agenda.TurnsAlike (fun s₁ tasks t₁ tasks' =>
        Twinned r s₀ x t₀ y μ s₁ (tasks ++ waiting) t₁ (tasks' ++ waiting'))
      (copyTurn r s (.enter n cursor)) (copyTurn r t (.enter m cursor)) := by
  obtain ⟨hn, hderef, hderef', -⟩ := htwin.enter h
  have hleft := (keeps_extracting h.linked h.root_lt).next htwin.left (copyTurn_blank hs)
  have hright := (keeps_extracting h.linked' h.root_lt').next htwin.right (copyTurn_blank ht)
  have hlt : s₀.graph.deref n < s₀.graph.size :=
    htwin.left.visited_lt h.linked h.root_lt (.inr ⟨_, List.mem_cons_self .., rfl⟩)
  have hlt' : t₀.graph.deref m < t₀.graph.size :=
    htwin.right.visited_lt h.linked' h.root_lt' (.inr ⟨_, List.mem_cons_self .., rfl⟩)
  have hsame : t₀.graph.deref m = μ (s₀.graph.deref n) :=
    (htwin.right.beside.deref_eq h.linked' m).symm.trans hderef'
  have hbegins := htwin.left.begins h.linked h.root_lt (hderef ▸ hs)
  have hbegins' := htwin.right.begins h.linked' h.root_lt' (hsame ▸ hderef' ▸ ht)
  rw [hsame] at hlt' hbegins'
  have htype : t.graph.currentType (μ (s₀.graph.deref n)) =
      s.graph.currentType (s₀.graph.deref n) := by
    rw [htwin.left.beside.currentType_eq hlt, htwin.right.beside.currentType_eq hlt', h.type_eq hn]
  have hkept : List.Forall₂ (TwinEdges s₀ x t₀ μ)
      ((s.graph.currentEdges (s₀.graph.deref n)).filter fun e => r.keeps cursor e.feature)
      ((t.graph.currentEdges (μ (s₀.graph.deref n))).filter fun e => r.keeps cursor e.feature) := by
    rw [htwin.left.beside.currentEdges_eq hlt, htwin.right.beside.currentEdges_eq hlt']
    refine List.rel_filter (fun d e hde => ?_) (h.currentEdges hn)
    show r.keeps cursor d.feature = true ↔ r.keeps cursor e.feature = true
    rw [hde.2.1]
  rw [copyTurn_blank hs, copyTurn_blank ht]
  obtain ⟨hgeneral, hakin⟩ := r.akin_generalize htwin.akin cursor
    (s.graph.currentType (s₀.graph.deref n))
  rw [hderef] at hleft ⊢
  rw [hderef', htype, ← hgeneral] at hright ⊢
  exact .next (htwin.push h hbegins hbegins' hakin hkept hleft hright)

/-- The two walks are in step. -/
theorem inStep_copyTurn : Agenda.InStep (copyTurn r) (copyTurn r) (Twinned r s₀ x t₀ y μ) := by
  refine ⟨fun htwin => ?_, fun {s task waiting t task' waiting'} htwin => ?_⟩
  · have hlength := htwin.tasks.length_eq
    rw [← List.length_eq_zero_iff, ← List.length_eq_zero_iff, hlength]
  · have hkeeps : ∀ {s' tasks}, copyTurn r s task = .next s' tasks →
        Extracting r s₀ x s' (tasks ++ waiting) :=
      (keeps_extracting h.linked h.root_lt).next htwin.left
    have hkeeps' : ∀ {t' tasks}, copyTurn r t task' = .next t' tasks →
        Extracting r t₀ y t' (tasks ++ waiting') :=
      (keeps_extracting h.linked' h.root_lt').next htwin.right
    cases (List.forall₂_cons.1 htwin.tasks).1 with
    | @enter n m cursor hn hm =>
      obtain ⟨-, -, -, hmark⟩ := htwin.enter h
      cases hs : s.graph.copyMark (s.graph.deref n) with
      | underway =>
        rw [hs] at hmark
        rw [copyTurn_underway hs, copyTurn_underway hmark]
        exact .halt
      | copied k =>
        rw [hs] at hmark
        have hleft := hkeeps (copyTurn_copied hs)
        have hright := hkeeps' (copyTurn_copied hmark)
        rw [copyTurn_copied hs, copyTurn_copied hmark]
        exact .next (htwin.pop hleft hright)
      | blank =>
        rw [hs] at hmark
        exact twinned_blank h htwin hs hmark
    | @finish n type kept kept' hn hkept =>
      exact .next (htwin.finished h hn hkept (htwin.left.gainsCopy h.linked h.root_lt)
        (htwin.right.gainsCopy h.linked' h.root_lt') htwin.akin (hkeeps rfl) (hkeeps' rfl))

omit h in
/-- New nodes with the same place among the new ones are the same structure. -/
theorem Twinned.isomorphic (h : Twins s₀ x t₀ y μ) (htwin : Twinned r s₀ x t₀ y μ s [] t []) :
    s.graph.layout.Isomorphic (copyOf s.graph x) t.graph.layout (copyOf t.graph y) := by
  have hbelow : ∀ {n : Nat}, s.graph.layout.Reach (copyOf s.graph x) n →
      s₀.graph.size ≤ n ∧ n < s.graph.size := fun hn => (htwin.left.below_iff h.linked).1 hn
  refine ⟨counterpart s₀ t₀, ?_, fun n hn m hm heq => ?_, fun n hn => ?_⟩
  · refine (copyOf_of_copied ?_).symm
    rw [htwin.right.beside.deref_eq h.linked', ← h.root_eq, htwin.mark ReflTransGen.refl,
      htwin.left.copyMark_copyOf h.linked htwin.left.hasCopy_root]
    rfl
  · exact counterpart_inj (hbelow hn).1 (hbelow hm).1 heq
  · obtain ⟨hle, hlt⟩ := hbelow hn
    exact ⟨htwin.type_eq hle hlt, htwin.edges_eq hle hlt⟩

/-- Structures that are laid out alike are copied out alike, or neither is copied out. -/
theorem extract_congr_of_akin (hakin : s₀.grammar.lattice.Akin t₀.grammar.lattice)
    (r : Restrictor) :
    (∃ k s' l t', s₀.extract x r = (.ok k, s') ∧ t₀.extract y r = (.ok l, t') ∧
      s'.graph.layout.Isomorphic k t'.graph.layout l) ∨
    ∃ e s' e' t', s₀.extract x r = (.error e, s') ∧ t₀.extract y r = (.error e', t') := by
  rcases extract_of_inStep h.linked h.linked' h.root_lt h.root_lt' (inStep_copyTurn h)
    (twinned_start h hakin (r := r) r.start) with ⟨s, t, htwin, hs, ht⟩ | hcyclic
  · refine .inl ⟨_, _, _, _, hs, ht, ?_⟩
    simp only [invalidate, mapGraph, Graph.layout_invalidate]
    exact htwin.isomorphic h
  · exact .inr hcyclic

theorem extract_congr (hgrammar : t₀.grammar = s₀.grammar) (r : Restrictor) :
    (∃ k s' l t', s₀.extract x r = (.ok k, s') ∧ t₀.extract y r = (.ok l, t') ∧
      s'.graph.layout.Isomorphic k t'.graph.layout l) ∨
    ∃ e s' e' t', s₀.extract x r = (.error e, s') ∧ t₀.extract y r = (.error e', t') :=
  extract_congr_of_akin h (.inl (congrArg Grammar.lattice hgrammar)) r

end Twins

/-! ## Restricted results -/

/-- A copy that keeps everything asks the lattice nothing. -/
theorem grammar_extract_unrestricted {s : Session} (hs : s.graph.Linked) {root : Nat}
    (hroot : root < s.graph.size) : (s.extract root unrestricted).2.grammar = s.grammar := by
  have hturn : ∀ {s₁ : Session} (task : CopyTask), s₁.grammar = s.grammar →
      (copyTurn unrestricted s₁ task).state.grammar = s.grammar := by
    intro s₁ task h
    cases task with
    | finish n type kept => exact h
    | enter n cursor =>
      cases hn : s₁.graph.copyMark (s₁.graph.deref n) with
      | underway => exact copyTurn_underway hn ▸ h
      | copied k => exact copyTurn_copied hn ▸ h
      | blank =>
        rw [copyTurn_blank hn]
        cases cursor <;> exact h
  have hrun := Agenda.state_run (P := fun s₁ : Session => s₁.grammar = s.grammar) hturn
    s.graph.weight [CopyTask.enter root unrestricted.start] rfl
  rw [extract_eq hs hroot unrestricted (Nat.le_refl _)]
  revert hrun
  generalize Agenda.run (copyTurn unrestricted) _ s [.enter root unrestricted.start] = ending
  intro hrun
  cases ending <;> exact hrun

/-- To drop what the episode made moves the copy only. -/
theorem extractOver_of_ok {s s' : Session} (hs : s.graph.Linked) {root : Nat}
    (hroot : root < s.graph.size) {r : Restrictor} {k : NodeId} (h : s.extract root r = (.ok k, s'))
    {size : Nat} (hsize : size ≤ s.graph.size) : ∃ u s₁, s.extractOver size root r = (some u, s₁) ∧
      u < s₁.graph.size ∧ s'.graph.layout.Isomorphic k s₁.graph.layout u ∧
      s₁.grammar = s'.grammar ∧ s₁.graph.AtRest := by
  rcases extract_cases hs hroot r with ⟨s₂, hdone, heq⟩ | ⟨s₂, n, cursor, waiting, e, -, -, heq⟩
  · rw [heq] at h
    cases h
    obtain ⟨hvoid, hnew⟩ := hdone.invalidated
    obtain ⟨hle, hlt⟩ := hdone.copied (hdone.copyMark_copyOf hs hdone.hasCopy_root)
    refine ⟨Graph.shifted size s.graph.size (copyOf s₂.graph root),
      s₂.invalidate.mapGraph (·.compact size s.graph.size), by rw [extractOver, heq], ?_, ?_, rfl,
      ?_⟩
    · show _ < (s₂.graph.invalidate.compact size s.graph.size).size
      rw [Graph.size_compact _ hsize hvoid.size_le, Graph.size_invalidate, Graph.shifted_of_le hle]
      exact Nat.sub_lt_sub_right (Nat.le_trans (Nat.sub_le _ _) hle) hlt
    · exact Graph.isomorphic_compact hsize hvoid.size_le hnew hle
    · exact hdone.beside.stamped.invalidate.2.compact _ _
  · rw [heq] at h
    cases h

/-- What is copied out whole has no cycle and is laid out as it was in the episode. -/
theorem twins_extractOver {s₀ s₁ : Session} (hs : s₀.graph.Linked) (hs₁ : s₁.graph.Linked)
    {root : Nat} (hroot : root < s₀.graph.size) {size : Nat} (hsize : size ≤ s₀.graph.size)
    {u : NodeId} (h : s₀.extractOver size root unrestricted = (some u, s₁)) :
    (∃ μ, Twins s₀ root s₁ u μ) ∧ s₁.grammar = s₀.grammar ∧
      s₀.graph.view.Acyclic (s₀.graph.deref root) := by
  rcases extract_cases hs hroot unrestricted with
    ⟨s, hdone, hwhole⟩ | ⟨s, n, cursor, waiting, e, -, -, hwhole⟩
  · obtain ⟨u', s₁', heq, hu, hcompact, hgrammar, hrest⟩ :=
      extractOver_of_ok hs hroot hwhole hsize
    rw [h] at heq
    cases heq
    have hview := hdone.isomorphic hs
    rw [← Graph.layout_invalidate] at hview
    have hcommitted := hview.trans hcompact
    rw [← hrest.view_eq_layout, ← hrest.deref_eq u] at hcommitted
    refine ⟨exists_twins hs hs₁ hroot hu hcommitted, ?_, hdone.acyclic⟩
    rw [hgrammar, ← grammar_extract_unrestricted hs hroot, hwhole]
  · rw [extractOver, hwhole] at h
    cases h

/-- Whatever episode is open and whatever the grammar: where two nodes are unified, to restrict the
result while it is copied out gives the same structure as to copy it out whole first and to restrict
it when it is copied once more. -/
theorem unifyInto_restricted {s s₁ : Session} (hs : s.Arises) {a b : Nat} (ha : a < s.graph.size)
    (hb : b < s.graph.size) {budget : Nat} {u : NodeId}
    (h : s.unifyInto budget a b unrestricted = some (some u, s₁)) (r : Restrictor) :
    ∃ k s₂ v s₃, s.unifyInto budget a b r = some (some k, s₂) ∧ s₁.extract u r = (.ok v, s₃) ∧
      s₂.graph.layout.Isomorphic k s₃.graph.layout v := by
  have hlinked₁ : s₁.graph.Linked := (hs.move (m := .call (.unifyInto budget a b unrestricted))
    ⟨by simp [Move.operands, Call.operands, ha, hb], trivial⟩
    (congrArg (Option.map Prod.snd) h)).closed.graph
  obtain ⟨⟨unified, s₀⟩, hentangle, heq⟩ := Option.map_eq_some_iff.1 h
  obtain ⟨-, hext, hlinked, -⟩ := linking_entangle hs.closed ha hb hentangle
  have hroot := Nat.lt_of_lt_of_le ha hext.size_le
  cases unified with
  | false => cases heq
  | true =>
    obtain ⟨⟨μ, htwins⟩, hsame, hacyclic⟩ :=
      twins_extractOver hlinked hlinked₁ hroot hext.size_le heq
    rcases extract_congr htwins hsame r with
      ⟨k, s', v, s₃, hfused, hstaged, hiso⟩ | ⟨e, s', e', t', hfused, -⟩
    · obtain ⟨k', s₂, hover, -, hmoved, -⟩ := extractOver_of_ok hlinked hroot hfused hext.size_le
      exact ⟨k', s₂, v, s₃, Option.map_eq_some_iff.2 ⟨_, hentangle, hover⟩, hstaged,
        hmoved.symm.trans hiso⟩
    · rcases extract_cases hlinked hroot r with
        ⟨s₃, -, hcase⟩ | ⟨s₃, n, cursor, waiting, e, hunder, hn, -⟩
      · rw [hfused] at hcase
        cases hcase
      · exact absurd hacyclic (not_acyclic_of_underway hunder hn)

/-- A node with one value for two features, and a node with a value for each, which an open episode
has unified. -/
def shares : Session :=
  ((ofGrammar (Sample.grammar [] [])).mapGraph fun g =>
    ((((((((g.add (.of 1) []).add .top []).add (.of 2) []).add .top []).add .top
      []).putEdge 0 0 1).putEdge 0 1 1).putEdge 2 0 3).putEdge 2 1 4).entangled 20 3 4

theorem arises_shares : shares.Arises := by
  have hnodes := (((((Arises.start Sample.sound_grammar_nil.rooted).add (.of 1)).add .top).add
    (.of 2)).add .top).add .top
  have hfirst := hnodes.move (m := .putEdge 0 0 1) ⟨by decide, trivial⟩ rfl
  have hsecond := hfirst.move (m := .putEdge 0 1 1) ⟨by decide, trivial⟩ rfl
  have hthird := hsecond.move (m := .putEdge 2 0 3) ⟨by decide, trivial⟩ rfl
  have hfourth := hthird.move (m := .putEdge 2 1 4) ⟨by decide, trivial⟩ rfl
  exact hfourth.entangled 20 (by decide) (by decide)

/-- One rule for a node and its value for the first feature, so that the rules run in a circle: no
other feature is kept, and types become more general. -/
def circling : Restrictor := .tree .empty ⟨#[⟨.keep, [.of 1], [⟨0, 0⟩]⟩], 0⟩

/-- The result has the type `c` and one value for both features. Restricted it has the type `a` and
the value for one feature. -/
theorem unifyInto_restricted_shares : ∃ s₁ : Session, shares.Arises ∧ 0 < shares.graph.size ∧
    2 < shares.graph.size ∧ shares.graph.deref 4 = 3 ∧
    shares.unifyInto 20 0 2 unrestricted = some (some 6, s₁) ∧ s₁.graph.type 6 = .of 3 ∧
    s₁.graph.edges 6 = [⟨0, 5⟩, ⟨1, 5⟩] ∧
    ∃ k s₂ v s₃, shares.unifyInto 20 0 2 circling = some (some k, s₂) ∧
      s₁.extract 6 circling = (.ok v, s₃) ∧ s₂.graph.layout.Isomorphic k s₃.graph.layout v := by
  have hanswer : (shares.unifyInto 20 0 2 unrestricted).map
      (fun p => (p.1, p.2.graph.type 6, p.2.graph.edges 6)) =
      some (some 6, .of 3, [⟨0, 5⟩, ⟨1, 5⟩]) := by
    decide +kernel
  obtain ⟨⟨answer, s₁⟩, h, heq⟩ := Option.map_eq_some_iff.1 hanswer
  simp only [Prod.mk.injEq] at heq
  obtain ⟨rfl, htype, hedges⟩ := heq
  have hleft : 0 < shares.graph.size := by decide +kernel
  have hright : 2 < shares.graph.size := by decide +kernel
  exact ⟨s₁, arises_shares, hleft, hright, by decide +kernel, h, htype, hedges,
    unifyInto_restricted arises_shares hleft hright h circling⟩

end Session

end FeatureLogic
