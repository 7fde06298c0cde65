import FeatureLogic.Proofs.Unify.Lossless
import FeatureLogic.Proofs.Unify.Minimal

/-!
Completion. A class with edges has met the prototype of its type, or a task sees to it
(`Completing`). So at the end every class is wellformed, if all nodes were to begin with.
-/

open Relation

namespace FeatureLogic

/-- A node with features whose type has a prototype with features meets that prototype. -/
def Shape.Wellformed (g : Grammar) (S : Shape) (n : NodeId) : Prop :=
  ∀ ⦃f m root⦄, S.value? n f = some m → g.featuredPrototype? (S.type n) = some root →
    g.prototypes.shape.Subsumes g.hierarchy root S n

section Wellformed

variable {g g' : Grammar} {S T : Shape} {x y : NodeId}

/-- Wellformedness does not depend on what the lattice knows. -/
theorem Grammar.Same.wellformed (h : g.Same g') (hx : S.Wellformed g x) : S.Wellformed g' x := by
  intro f m root hm hroot
  rw [h.hierarchy_eq, h.prototypes_eq]
  exact hx hm (h.featuredPrototype? _ ▸ hroot)

/-- Nor does it depend on the numbers of the nodes. -/
theorem Shape.Wellformed.isomorphic (hx : S.Wellformed g x) (hg : g.Sound)
    (hi : S.Isomorphic x T y) : T.Wellformed g y := by
  intro f m root hm hroot
  obtain ⟨μ, rfl, -, hμ⟩ := id hi
  obtain ⟨htype, hvalue⟩ := hμ x ReflTransGen.refl
  rw [hvalue f] at hm
  obtain ⟨k, hk, -⟩ := Option.map_eq_some_iff.1 hm
  exact (hx hk (htype ▸ hroot)).trans hg.lattice.hierarchy (hi.subsumes _)

end Wellformed

namespace Grammar

/-- All nodes of prototypes are wellformed. -/
def WellformedPrototypes (g : Grammar) : Prop :=
  ∀ ⦃t root n⦄, g.featuredPrototype? t = some root → g.prototypes.shape.Reach root n →
    g.prototypes.shape.Wellformed g n

/-- Prototypes are wellformed where the nodes with features whose types have prototypes are the roots
of those. -/
theorem wellformedPrototypes_of_forall {g : Grammar} (hg : g.Sound) (below : List NodeId)
    (hroots : ∀ p ∈ g.roots.toList, p.2 ∈ below)
    (hclosed : ∀ n ∈ below, ∀ e ∈ g.prototypes.edges n, e.target ∈ below)
    (hself : ∀ n ∈ below, g.prototypes.edges n = [] ∨
      g.featuredPrototype? (g.prototypes.type n) = none ∨
      g.featuredPrototype? (g.prototypes.type n) = some n) : g.WellformedPrototypes := by
  intro t root n h hn f m root' hm hroot'
  have hroot := hroots _ (Std.TreeMap.mem_toList_iff_getElem?_eq_some.2
    (roots_of_featuredPrototype? h).1)
  replace hroot' : g.featuredPrototype? (g.prototypes.type n) = some root' := hroot'
  rcases hself n (hg.prototypes.mem_of_reach below hroot hclosed hn) with hnil | hnone | hsome
  · exact absurd hnil (List.ne_nil_of_mem (hg.prototypes.value_eq_some_iff.1 hm))
  · rw [hnone] at hroot'
    cases hroot'
  · rw [hsome] at hroot'
    cases hroot'
    exact Shape.Subsumes.refl ..

/-- Prototypes are inherited: a type below one that has a prototype with features has such a
prototype, too, and one that is at least as specific. -/
def Inherits (g : Grammar) : Prop :=
  ∀ ⦃t u root⦄, u ≠ .bottom → g.hierarchy.Le u t → g.featuredPrototype? t = some root →
    ∃ root', g.featuredPrototype? u = some root' ∧
      g.prototypes.shape.Subsumes g.hierarchy root g.prototypes.shape root'

/-- Prototypes are inherited, and their nodes are wellformed. -/
structure Coherent (g : Grammar) : Prop where
  wellformed : g.WellformedPrototypes
  inherits : g.Inherits

end Grammar

namespace Web

/-- Committed structure is the same structure after a step. -/
theorem Grows.isomorphic {W W' : Web} (h : W.Grows W') (hW : W.Sound) {x : Nat} (hx : x < W.size) :
    W.shape.Isomorphic x W'.shape x := by
  refine ⟨id, rfl, fun _ _ _ _ heq => heq, fun n hn => ?_⟩
  have hn := hW.shape_reach_lt hx hn
  refine ⟨h.shape_type_eq hn, fun f => ?_⟩
  rw [Option.map_id]
  exact congrFun (h.shape_value_eq hn) f

/-- What comes in is the same structure. -/
theorem Import.isomorphic {W W' : Web} {first root : NodeId} {type : TypeId} {source : Shape}
    {κ : NodeId → NodeId} (h : W.Import first type source root κ W') {n : NodeId}
    (hn : source.Reach root n) : source.Isomorphic n W'.shape (κ n) :=
  ⟨κ, rfl, fun _ hm _ hk heq => h.inj (hn.trans hm) (hn.trans hk) heq,
    fun _ hm => ⟨h.shape_type_copy (hn.trans hm), h.shape_value_copy (hn.trans hm)⟩⟩

/-- A class is or is to be joined with a node below which the prototype of a type is met. -/
def Meets (g : Grammar) (W : Web) (tasks : List UnifyTask) (x : NodeId) (root : NodeId) : Prop :=
  ∃ k < W.size, W.Joined tasks k x ∧ g.prototypes.shape.Subsumes g.hierarchy root W.shape k

/-- Classes with edges have met the prototypes of their types, or tasks see to it. -/
structure Completing (g : Grammar) (W₀ : Web) (a b : NodeId) (W : Web) (tasks : List UnifyTask) :
    Prop where
  closed : Closed W₀ a b W tasks
  prototype : ∀ {n root}, Region W₀ a b W n → W.rep n = n → W.HasEdges n →
    g.featuredPrototype? (W.type n) = some root → W.Meets g tasks n root
  merge : ∀ {left right survivor incoming}, .merge left right survivor incoming ∈ tasks →
    W.HasEdges (W.rep survivor)

section Completing

variable {g : Grammar} {W₀ W W' : Web} {a b : NodeId} {task : UnifyTask}
  {tasks waiting : List UnifyTask}

theorem completing_start (hg : g.Sound) (hW : W.Sound) {a b : Nat} (ha : a < W.size) (hb : b < W.size)
    (hleft : ∀ {n}, W.view.Reach (W.rep a) n → W.view.Wellformed g n)
    (hright : ∀ {n}, W.view.Reach (W.rep b) n → W.view.Wellformed g n) :
    Completing g W a b (W.withShape W.settled) [.pair a b] := by
  have hclosed := closed_start hW ha hb
  refine ⟨hclosed.withShape _, fun {n root} hn hself hedges hroot => ?_, fun ht => ?_⟩
  · obtain ⟨f, m, hm⟩ := hedges
    have hself : W.rep n = n := hself
    have hn : Region W a b W n := hn
    obtain ⟨hlt, hreach⟩ := hn.start
    rw [hself] at hreach
    have hvalue : W.view.value? n f = some (W.rep m) := by
      show (W.edge? n f).map W.rep = _
      rw [show W.edge? n f = some m from hm, Option.map_some]
    have hsub : g.prototypes.shape.Subsumes g.hierarchy root W.view n :=
      hreach.elim (fun hn => hleft hn hvalue hroot) fun hn => hright hn hvalue hroot
    refine ⟨n, hlt, .refl _, ?_⟩
    have hiso := hW.isomorphic_settled n
    rw [hself] at hiso
    exact hsub.trans hg.lattice.hierarchy (hiso.subsumes _)
  · cases List.mem_singleton.1 ht

/-- What a class meets, it or the class that takes it in meets after a step. -/
theorem Meets.step (hg : g.Sound) (hW : W.Sound) (hs : UnifyStep g W task W' tasks)
    {x y root : NodeId} (h : W.Meets g (task :: waiting) x root)
    (hxy : W'.Joined (tasks ++ waiting) x y) : W'.Meets g (tasks ++ waiting) y root := by
  obtain ⟨k, hk, hjoined, hsub⟩ := h
  refine ⟨k, Nat.lt_of_lt_of_le hk hs.grows.size_le,
    (hjoined.mono (carries_step waiting hW hs).due).trans _ _ _ hxy, ?_⟩
  exact hsub.trans hg.lattice.hierarchy ((hs.grows.isomorphic hW hk).subsumes _)

/-- A step that makes no new class and gives no class edges or another type. -/
theorem Completing.same (h : Completing g W₀ a b W (task :: waiting)) (hg : g.Sound)
    (hW : W.Sound) (hs : UnifyStep g W task W' tasks) (hsize : W'.size = W.size)
    (hrep : W'.rep = W.rep) (htype : W'.type = W.type)
    (hedges : ∀ {n}, W'.HasEdges n ↔ W.HasEdges n)
    (hmerge : ∀ {left right survivor incoming}, .merge left right survivor incoming ∈ tasks →
      W.HasEdges (W.rep survivor)) :
    Completing g W₀ a b W' (tasks ++ waiting) := by
  refine ⟨h.closed.step hW hs, fun {n root} hn hself hedge hroot => ?_, fun ht => ?_⟩
  · rcases hn.cases (W := W) with hn | ⟨h₁, h₂⟩
    · rw [hrep] at hself
      rw [htype] at hroot
      exact (h.prototype hn hself (hedges.1 hedge) hroot).step hg hW hs (.refl _)
    · exact absurd (hsize ▸ h₂) (Nat.not_lt.2 h₁)
  · rw [hrep]
    rcases List.mem_append.1 ht with ht | ht
    · exact hedges.2 (hmerge ht)
    · exact hedges.2 (h.merge (List.mem_cons_of_mem _ ht))

theorem Completing.absorb {left right survivor absorbed : NodeId} {type : TypeId}
    (h : Completing g W₀ a b W (.pair left right :: waiting)) (hg : g.Sound) (hW : W.Sound)
    (hs : UnifyStep g W (.pair left right) W' tasks)
    (hreps : (survivor = W.rep left ∧ absorbed = W.rep right) ∨
      (survivor = W.rep right ∧ absorbed = W.rep left))
    (hcovered : g.featuredPrototype? type = none ∨ W.Covered (W.rep left) (W.rep right) type)
    (hunion : W.Union survivor absorbed type W')
    (htasks : (tasks = [] ∧ ¬ W.HasEdges absorbed) ∨
      ∃ incoming, tasks = [.merge left right survivor incoming] ∧ W.HasEdges survivor ∧
        ∀ f m, W.edge? absorbed f = some m ↔ ⟨f, m⟩ ∈ incoming) :
    Completing g W₀ a b W' (tasks ++ waiting) := by
  have hedges : ∀ {n}, W'.HasEdges n ↔ W.HasEdges n := by
    intro n
    rw [HasEdges, hunion.edge_eq, HasEdges]
  -- the two classes, whichever of them survives
  have hboth : ∀ {z}, z = W.rep left ∨ z = W.rep right →
      (z = survivor ∨ z = absorbed) ∧ Region W₀ a b W z ∧ W.rep z = z := by
    rintro z (rfl | rfl)
    · exact ⟨(mem_sides hreps).1, h.closed.rep (h.closed.task (List.mem_cons_self ..) (.inl rfl)),
        hW.rep_rep left⟩
    · exact ⟨(mem_sides hreps).2, h.closed.rep (h.closed.task (List.mem_cons_self ..) (.inr rfl)),
        hW.rep_rep right⟩
  have hsurvivor : survivor = W.rep left ∨ survivor = W.rep right := hreps.imp And.left And.left
  have hself : W'.rep survivor = survivor := hunion.rep_of_mem (.inl (hboth hsurvivor).2.2)
  refine ⟨h.closed.step hW hs, fun {n root} hn hrep hedge hroot => ?_, fun {l r s incoming} ht => ?_⟩
  · have hn := hn.old (hunion.size_eq ▸ h.closed.lt_step hs hn)
    have hedge := hedges.1 hedge
    rcases hunion.self_cases hrep with rfl | ⟨-, hrep, htype⟩
    · rw [hunion.type_self] at hroot
      rcases hcovered with hnone | ⟨h₁, h₂⟩ | ⟨z, hz, htype, hzedge⟩
      · rw [hnone] at hroot
        cases hroot
      · rcases hsurvivor with heq | heq
        · exact absurd (heq ▸ hedge) h₁
        · exact absurd (heq ▸ hedge) h₂
      · -- one of the two has the type already and has met its prototype
        obtain ⟨hmem, hregion, hzself⟩ := hboth hz
        refine (h.prototype hregion hzself hzedge (htype.symm ▸ hroot)).step hg hW hs
          (joined_of_rep_eq ?_)
        rw [hself, hunion.rep_of_mem (hzself.symm ▸ hmem)]
    · rw [htype] at hroot
      exact (h.prototype hn hrep hedge hroot).step hg hW hs (.refl _)
  · rcases List.mem_append.1 ht with ht | ht
    · rw [hedges]
      rcases htasks with ⟨rfl, -⟩ | ⟨incoming, rfl, hhas, -⟩
      · cases ht
      · cases List.mem_singleton.1 ht
        rwa [hself]
    · have ht := List.mem_cons_of_mem (.pair left right) ht
      exact hs.hasEdges hW (h.closed.lt (h.closed.task ht (.inl rfl))) (h.merge ht)

theorem Completing.complete {left right root : NodeId} {type : TypeId} {κ : NodeId → NodeId}
    (h : Completing g W₀ a b W (.pair left right :: waiting)) (hg : g.Sound) (hW : W.Sound)
    (hwell : g.WellformedPrototypes)
    (hs : UnifyStep g W (.pair left right) W' [.pair (W.rep left) (κ root),
      .resume left right (W.rep left) (W.rep right)])
    (hproto : g.featuredPrototype? type = some root)
    (himport : W.Import (W.rep left) type g.prototypes.shape root κ W') :
    Completing g W₀ a b W' ([UnifyTask.pair (W.rep left) (κ root),
      .resume left right (W.rep left) (W.rep right)] ++ waiting) := by
  refine ⟨h.closed.step hW hs, fun {n root'} hn hrep hedge hroot' => ?_, fun {l r s incoming} ht => ?_⟩
  · -- an old node, whose type changes only if it is the first of the pair, or one of the copy
    rcases hn.cases (W := W) with hn | ⟨h₁, h₂⟩
    · by_cases hfirst : n = W.rep left
      · subst hfirst
        rw [himport.type_self, hproto] at hroot'
        cases hroot'
        exact ⟨κ root, himport.copy_lt ReflTransGen.refl,
          .symm _ _ (joined_of_pair (List.mem_cons_self ..)),
          (himport.isomorphic ReflTransGen.refl).subsumes _⟩
      · have hlt := h.closed.lt hn
        rw [himport.rep_eq] at hrep
        rw [himport.type_eq hlt hfirst] at hroot'
        rw [HasEdges, himport.edge_eq hlt] at hedge
        exact (h.prototype hn hrep hedge hroot').step hg hW hs (.refl _)
    · obtain ⟨k, hk, rfl⟩ := himport.surj h₁ h₂
      obtain ⟨f, m, hm⟩ := hedge
      rw [himport.edge_copy hk] at hm
      obtain ⟨j, hj, -⟩ := Option.map_eq_some_iff.1 hm
      rw [himport.type_copy hk] at hroot'
      have hsub := hwell hproto hk hj hroot'
      exact ⟨κ k, h₂, .refl _,
        hsub.trans hg.lattice.hierarchy ((himport.isomorphic hk).subsumes _)⟩
  · have ht : .merge l r s incoming ∈ waiting := by simpa using ht
    have ht := List.mem_cons_of_mem (.pair left right) ht
    exact hs.hasEdges hW (h.closed.lt (h.closed.task ht (.inl rfl))) (h.merge ht)

theorem Completing.step (h : Completing g W₀ a b W (task :: waiting)) (hg : g.Sound)
    (hW : W.Sound) (hwell : g.WellformedPrototypes) (hs : UnifyStep g W task W' tasks) :
    Completing g W₀ a b W' (tasks ++ waiting) := by
  cases hs with
  | met heq => exact h.same hg hW (.met heq) rfl rfl rfl Iff.rfl (by simp)
  | absorb hreps hne htype hbottom hcovered hunion htasks =>
    exact h.absorb hg hW (.absorb hreps hne htype hbottom hcovered hunion htasks) hreps hcovered
      hunion htasks
  | complete hne htype hbottom hproto hmissed himport =>
    exact h.complete hg hW hwell (.complete hne htype hbottom hproto hmissed himport) hproto himport
  | merged => exact h.same hg hW .merged rfl rfl rfl Iff.rfl (by simp)
  | shared hexisting =>
    refine h.same hg hW (.shared hexisting) rfl rfl rfl Iff.rfl fun ht => ?_
    have hhas := h.merge (List.mem_cons_self ..)
    rcases List.mem_cons.1 ht with heq | ht
    · cases heq
    · cases List.mem_singleton.1 ht
      exact hhas
  | gained hnone hgain =>
    have hhas := h.merge (List.mem_cons_self ..)
    refine h.same hg hW (.gained hnone hgain) hgain.size_eq hgain.rep_eq hgain.type_eq
      (fun {n} => ⟨?_, ?_⟩) fun ht => ?_
    · rintro ⟨f, m, hm⟩
      rw [hgain.edge_eq] at hm
      split at hm
      · rename_i heq
        exact heq.1 ▸ hhas
      · exact ⟨f, m, hm⟩
    · rintro ⟨f, m, hm⟩
      refine ⟨f, ?_⟩
      rw [hgain.edge_eq]
      split
      · exact ⟨_, rfl⟩
      · exact ⟨m, hm⟩
    · cases List.mem_singleton.1 ht
      exact hhas
  | resume => exact h.same hg hW .resume rfl rfl rfl Iff.rfl (by simp)

/-- At the end every class is wellformed. -/
theorem Completing.wellformed (h : Completing g W₀ a b W []) (hg : g.Sound) (hW : W.Sound)
    (hl : Lossless g.hierarchy a b W []) {n : NodeId} (hn : W.view.Reach (W.rep a) n) :
    W.view.Wellformed g n := by
  intro f m root hm hroot
  obtain ⟨hregion, hself⟩ := h.closed.of_reach hW h.closed.left hn
  obtain ⟨k, hk, -⟩ := Option.map_eq_some_iff.1 hm
  obtain ⟨x, hx, hjoined, hsub⟩ := h.prototype hregion hself ⟨f, k, hk⟩ hroot
  have hrep : W.rep x = n := hjoined.rep_eq.trans hself
  exact hsub.trans hg.lattice.hierarchy ⟨W.rep, hrep, hl.maps hW hx⟩

end Completing

/-! ## Impossible types -/

/-- No class of the region has an impossible type. -/
def Possible (W₀ : Web) (a b : NodeId) (W : Web) : Prop :=
  ∀ ⦃n⦄, Region W₀ a b W n → W.rep n = n → W.type n ≠ .bottom

theorem Possible.step {g : Grammar} {W₀ W W' : Web} {a b : NodeId} {task : UnifyTask}
    {tasks waiting : List UnifyTask} (h : Possible W₀ a b W) (hg : g.Sound)
    (hclosed : Closed W₀ a b W (task :: waiting)) (hs : UnifyStep g W task W' tasks) :
    Possible W₀ a b W' := by
  intro n hn hself
  -- an old node has its type or the bound just found; a new one comes from a prototype
  rcases hn.cases (W := W) with hold | ⟨h₁, h₂⟩
  · cases hs with
    | @absorb _ left right survivor absorbed type _ hreps hne htype hbottom hcovered hunion =>
      rcases hunion.self_cases hself with rfl | ⟨-, hself, htype⟩
      · rw [hunion.type_self]
        exact hbottom
      · rw [htype]
        exact h hold hself
    | @complete _ left right root type κ hne htype hbottom hroot hmissed himport =>
      by_cases hfirst : n = W.rep left
      · rw [hfirst, himport.type_self]
        exact hbottom
      · rw [himport.type_eq (hclosed.lt hold) hfirst]
        exact h hold (himport.rep_eq ▸ hself)
    | gained hnone hgain =>
      rw [hgain.type_eq]
      exact h hold (hgain.rep_eq ▸ hself)
    | met | merged | shared | resume => exact h hold hself
  · cases hs with
    | complete hne htype hbottom hroot hmissed himport =>
      obtain ⟨k, hk, rfl⟩ := himport.surj h₁ h₂
      rw [himport.type_copy hk]
      exact hg.possible k
    | absorb hreps hne htype hbottom hcovered hunion htasks =>
      exact absurd (hunion.size_eq ▸ h₂) (Nat.not_lt.2 h₁)
    | gained hnone hgain => exact absurd (hgain.size_eq ▸ h₂) (Nat.not_lt.2 h₁)
    | met | merged | shared | resume => exact absurd h₂ (Nat.not_lt.2 h₁)

/-- Where prototypes are inherited, a structure all of whose classes are wellformed meets the
prototypes of more general types as well. -/
theorem completed_of_wellformed {g : Grammar} {T : Shape} {x : NodeId} (hg : g.Sound)
    (hinherits : g.Inherits) (hwell : ∀ {n}, T.Reach x n → T.Wellformed g n)
    (htype : ∀ {n}, T.Reach x n → T.type n ≠ .bottom) : T.Completed g x := by
  intro n f m t root hn hm hle hroot
  obtain ⟨root', hroot', hsub⟩ := hinherits (htype hn) hle hroot
  exact hsub.trans hg.lattice.hierarchy (hwell hn hm hroot')

end Web

end FeatureLogic
