import FeatureLogic.Proofs.Session.Alike
import FeatureLogic.Proofs.Session.Restricting
import FeatureLogic.Proofs.Unify.Simulation

/-!
Unifications that are alike. To unify nodes that correspond goes the same way in two sessions of one
grammar: prototypes are copied in on both sides at the same turns, so the correspondence grows, and
the walks need the same number of turns (`Session.unifyNodes_alike`). What is copied out of the
results is laid out alike (`Session.unifyInto_alike`).
-/

namespace FeatureLogic

namespace Session

/-- The same task for nodes that correspond. -/
inductive UnifyAlike (ρ : Correspondence) : UnifyTask → UnifyTask → Prop
  | pair {left right left' right' : NodeId} (hleft : ρ left left') (hright : ρ right right') :
    UnifyAlike ρ (.pair left right) (.pair left' right')
  | merge {left right survivor left' right' survivor' : NodeId} {incoming incoming' : List Edge}
    (hsurvivor : ρ survivor survivor') (hincoming : Edges.Alike ρ incoming incoming') :
    UnifyAlike ρ (.merge left right survivor incoming) (.merge left' right' survivor' incoming')
  | resume {left right first second left' right' first' second' : NodeId} (hfirst : ρ first first')
    (hsecond : ρ second second') :
    UnifyAlike ρ (.resume left right first second) (.resume left' right' first' second')

theorem UnifyAlike.mono {ρ ρ' : Correspondence} (hρ : ρ ≤ ρ') {task task' : UnifyTask}
    (h : UnifyAlike ρ task task') : UnifyAlike ρ' task task' := by
  cases h with
  | pair hleft hright => exact .pair (hρ _ _ hleft) (hρ _ _ hright)
  | merge hsurvivor hincoming => exact .merge (hρ _ _ hsurvivor) (hincoming.mono hρ)
  | resume hfirst hsecond => exact .resume (hρ _ _ hfirst) (hρ _ _ hsecond)

/-- Turns that are alike, by a correspondence that may have grown. -/
abbrev UnifyTurnsAlike (ρ : Correspondence) :
    Turn Session UnifyTask Unit → Turn Session UnifyTask Unit → Prop :=
  Agenda.TurnsAlike fun s tasks t tasks' => ∃ ρ', ρ ≤ ρ' ∧ s.Corresponds ρ' t ∧
    List.Forall₂ (UnifyAlike ρ') tasks tasks'

section Turns

variable {ρ : Correspondence} {s t : Session} (h : s.Corresponds ρ t)
include h

theorem Corresponds.unify (x y : TypeId) :
    Corresponds ρ (s.ask fun l => l.unify x y).2 (t.ask fun l => l.unify x y).2 where
  sound := sound_ask_unify h.sound x y
  sound' := sound_ask_unify h.sound' x y
  same := (same_ask_unify s x y).symm.trans (h.same.trans (same_ask_unify t x y))
  graph := h.graph

/-- Of nodes that correspond the same one is absorbed. -/
theorem Corresponds.absorb (left right left' right' : NodeId)
    {first second first' second' : NodeId} (hfirst : ρ first first') (hsecond : ρ second second')
    (type : TypeId) :
    UnifyTurnsAlike ρ (s.absorb left right first second type)
      (t.absorb left' right' first' second' type) := by
  simp only [Session.absorb, h.graph.hasCurrentEdges_eq hfirst, h.graph.hasCurrentEdges_eq hsecond]
  split
  · exact .next ⟨ρ, le_rfl, h.ofGraph (h.graph.setForward hsecond hfirst), .nil⟩
  · split
    · exact .next ⟨ρ, le_rfl,
        h.ofGraph ((h.graph.setCurrentType hsecond type).setForward hfirst hsecond), .nil⟩
    · exact .next ⟨ρ, le_rfl, h.ofGraph (h.graph.setForward hsecond hfirst),
        .cons (.merge hfirst (h.graph.currentEdges hsecond)) .nil⟩

variable (hs : s.graph.Linked) (ht : t.graph.Linked)
include hs ht

/-- An edge is handed over on both sides, or its value is unified on both. -/
theorem Corresponds.handOver (left right left' right' : NodeId) {survivor survivor' : NodeId}
    {d e : Edge} {rest rest' : List Edge} (hsurvivor : ρ survivor survivor')
    (hfeature : d.feature = e.feature) (htarget : ρ d.target e.target)
    (hrest : Edges.Alike ρ rest rest') :
    UnifyTurnsAlike ρ (s.handOver left right survivor d rest)
      (t.handOver left' right' survivor' e rest') := by
  have hholder := h.graph.deref hsurvivor hs ht
  have hexisting := h.graph.currentEdge? hholder d.feature
  simp only [Session.handOver, ← hfeature]
  generalize s.graph.currentEdge? (s.graph.deref survivor) d.feature = existing,
    t.graph.currentEdge? (t.graph.deref survivor') d.feature = existing' at hexisting
  cases hexisting with
  | some hexisting =>
    exact .next ⟨ρ, le_rfl, h,
      .cons (.pair hexisting htarget) (.cons (.merge hsurvivor hrest) .nil)⟩
  | none =>
    exact .next ⟨ρ, le_rfl, h.mapGraph (h.graph.addPending hholder hfeature htarget),
      .cons (.merge hsurvivor hrest) .nil⟩

/-- A copy of the same prototype on both sides comes to correspond. -/
theorem Corresponds.importFrom {source : Graph} (hsource : source.Sound) {root : Nat}
    (hroot : root < source.size) : ∃ ρ', ρ ≤ ρ' ∧
      ρ' (s.importFrom source root).1 (t.importFrom source root).1 ∧
      Corresponds ρ' (s.importFrom source root).2 (t.importFrom source root).2 := by
  obtain ⟨κ, hκ⟩ := s.graph.copyFrom_spec hsource hroot
  obtain ⟨κ', hκ'⟩ := t.graph.copyFrom_spec hsource hroot
  have hcopied := h.graph.copyOf hs.stamped.generation_pos ht.stamped.generation_pos hsource hκ hκ'
  exact ⟨_, fun _ _ => .inl, .inr ⟨root, .refl, hκ.root_eq, hκ'.root_eq⟩, h.ofGraph hcopied⟩

omit h hs ht in
/-- Two nodes that have got the type of both meet its prototype, or one of them is absorbed. -/
theorem Corresponds.completed {ρ : Correspondence} {s t : Session} (h : s.Corresponds ρ t)
    (hs : s.graph.Linked) (ht : t.graph.Linked) (left right left' right' : NodeId)
    {first second first' second' : NodeId} (hfirst : ρ first first') (hsecond : ρ second second')
    (needed : Bool) (type : TypeId) :
    UnifyTurnsAlike ρ
      (if needed then
        match s.grammar.featuredPrototype? type with
        | some root => .next (s.mapGraph (·.copyFrom s.grammar.prototypes root))
            [.pair first s.graph.size, .resume left right first second]
        | none => s.absorb left right first second type
      else s.absorb left right first second type)
      (if needed then
        match t.grammar.featuredPrototype? type with
        | some root => .next (t.mapGraph (·.copyFrom t.grammar.prototypes root))
            [.pair first' t.graph.size, .resume left' right' first' second']
        | none => t.absorb left' right' first' second' type
      else t.absorb left' right' first' second' type) := by
  have habsorb := h.absorb left right left' right' hfirst hsecond type
  rw [h.same.featuredPrototype?, h.same.prototypes_eq]
  split
  · cases hproto : s.grammar.featuredPrototype? type with
    | none => exact habsorb
    | some root =>
      have hroot := h.sound.root_lt (Grammar.roots_of_featuredPrototype? hproto).1
      obtain ⟨ρ', hle, hcopy, hcopied⟩ := h.importFrom hs ht h.sound.prototypes hroot
      exact .next ⟨ρ', hle, hcopied, .cons (.pair (hle _ _ hfirst) hcopy)
        (.cons (.resume (hle _ _ hfirst) (hle _ _ hsecond)) .nil)⟩
  · exact habsorb

theorem Corresponds.unifyPair {left right left' right' : NodeId} (hleft : ρ left left')
    (hright : ρ right right') : UnifyTurnsAlike ρ (s.unifyPair left right)
      (t.unifyPair left' right') := by
  have hfirst := h.graph.deref hleft hs ht
  have hsecond := h.graph.deref hright hs ht
  -- both turns meet one class, or both ask for the same lower bound
  by_cases heq : s.graph.deref left = s.graph.deref right
  · have heq' := (h.graph.eq_iff hfirst hsecond).1 heq
    simp only [Session.unifyPair, heq, heq', if_true]
    exact .next ⟨ρ, le_rfl, h, .nil⟩
  · have hne := mt (h.graph.eq_iff hfirst hsecond).2 heq
    rw [unifyPair_of_ne rfl rfl (s.common_eq_glb h.sound ..).symm rfl rfl heq,
      unifyPair_of_ne rfl rfl (t.common_eq_glb h.sound' ..).symm rfl rfl hne]
    have hasked : (s.asked (s.graph.deref left) (s.graph.deref right)).Corresponds ρ
        (t.asked (t.graph.deref left') (t.graph.deref right')) := by
      unfold asked
      rw [h.graph.currentType_eq hfirst, h.graph.currentType_eq hsecond]
      exact h.unify _ _
    rw [h.graph.currentType_eq hfirst, h.graph.currentType_eq hsecond,
      ← Lattice.glb_congr h.same.hierarchy_eq]
    generalize t.grammar.lattice.glb _ _ = type
    have htyped : ((s.asked (s.graph.deref left) (s.graph.deref right)).mapGraph
        (·.setCurrentType (s.graph.deref left) type)).Corresponds ρ
        ((t.asked (t.graph.deref left') (t.graph.deref right')).mapGraph
          (·.setCurrentType (t.graph.deref left') type)) :=
      hasked.mapGraph (hasked.graph.setCurrentType hfirst type)
    split
    · exact .halt
    · rw [htyped.graph.hasCurrentEdges_eq hfirst, htyped.graph.hasCurrentEdges_eq hsecond]
      exact htyped.completed (hs.setCurrentType _ _) (ht.setCurrentType _ _) left right left' right'
        hfirst hsecond _ type

end Turns

/-- What is copied out of two episodes is laid out alike, or a cycle is found in both. -/
theorem extractOver_alike {ρ : Correspondence} {s t : Session} (h : s.Corresponds ρ t)
    (hs : s.graph.Linked) (ht : t.graph.Linked) {a a' : NodeId} (ha : ρ a a') (r : Restrictor)
    {size size' : Nat} (hsize : size ≤ s.graph.size) (hsize' : size' ≤ t.graph.size) :
    Option.Rel (fun n m => (s.extractOver size a r).2.graph.layout.Isomorphic n
        (t.extractOver size' a' r).2.graph.layout m)
      (s.extractOver size a r).1 (t.extractOver size' a' r).1 := by
  obtain ⟨hlt, hlt'⟩ := h.graph.lt ha
  obtain ⟨μ, htwins⟩ := exists_twins hs ht hlt hlt' (h.graph.isomorphic_view hs ht ha)
  rcases extract_congr_of_akin htwins h.akin r with
    ⟨k, s', k', t', heq, heq', hiso⟩ | ⟨e, s', e', t', heq, heq'⟩
  · obtain ⟨n, s₁, hn, -, hmoved, -⟩ := extractOver_of_ok hs hlt heq hsize
    obtain ⟨m, t₁, hm, -, hmoved', -⟩ := extractOver_of_ok ht hlt' heq' hsize'
    rw [hn, hm]
    exact .some (hmoved.symm.trans (hiso.trans hmoved'))
  · simp only [extractOver, heq, heq']
    exact .none

/-- The structures of both answers are laid out alike, or both have none. -/
def AnswersAlike (p q : Option NodeId × Session) : Prop :=
  Option.Rel (fun n m => p.2.graph.layout.Isomorphic n q.2.graph.layout m) p.1 q.1

/-- What is made of the end of a unification. -/
def concluded (size : Nat) (root : NodeId) (r : Restrictor) (p : Bool × Session) :
    Option NodeId × Session :=
  if p.1 then p.2.extractOver size root r else (none, p.2.abandon size)

theorem unifyInto_eq (budget : Nat) (s : Session) (a b : NodeId) (r : Restrictor) :
    s.unifyInto budget a b r = (s.unifyNodes budget a b).map (concluded s.graph.size a r) := by
  simp only [unifyInto, entangle, Option.map_map]
  refine congrArg (Option.map · _) (funext fun p => ?_)
  obtain ⟨unified, s₁⟩ := p
  cases unified <;> rfl

/-- What is made of ends that are alike is alike. -/
theorem concluded_alike {size size' : Nat} {a a' : NodeId} (r : Restrictor)
    {p q : Bool × Session} (hsame : p.1 = q.1) (hp : size ≤ p.2.graph.size ∧ p.2.graph.Linked)
    (hq : size' ≤ q.2.graph.size ∧ q.2.graph.Linked)
    (halike : p.1 = true → ∃ ρ, ρ a a' ∧ p.2.Corresponds ρ q.2) :
    AnswersAlike (concluded size a r p) (concluded size' a' r q) := by
  obtain ⟨unified, s₁⟩ := p
  obtain ⟨unified', t₁⟩ := q
  obtain rfl : unified = unified' := hsame
  cases unified with
  | false => exact .none
  | true =>
    obtain ⟨ρ, ha, h⟩ := halike rfl
    rw [concluded, concluded, if_pos rfl, if_pos rfl]
    exact extractOver_alike h hp.2 hq.2 ha r hp.1 hq.1

/-- Unifications of nodes that correspond are in step. -/
theorem inStep_unifyTurn {s₀ t₀ : Session} (hs : s₀.grammar.Rooted) (ht : t₀.grammar.Rooted)
    (ρ₀ : Correspondence) : Agenda.InStep unifyTurn unifyTurn
      (Agenda.Abreast (Linking s₀) (Linking t₀) Corresponds UnifyAlike ρ₀) := by
  refine Agenda.inStep_of_abreast (keeps_linking hs) (keeps_linking ht) (fun hw h => h.mono hw) ρ₀
    fun {ρ s task waiting t task' waiting'} h htask hinv hinv' => ?_
  cases htask with
  | pair hleft hright => exact h.unifyPair hinv.graph hinv'.graph hleft hright
  | resume hfirst hsecond => exact .next ⟨ρ, le_rfl, h, .cons (.pair hfirst hsecond) .nil⟩
  | merge hsurvivor hincoming =>
    cases hincoming with
    | nil => exact .next ⟨ρ, le_rfl, h, .nil⟩
    | cons hde hrest =>
      exact h.handOver hinv.graph hinv'.graph _ _ _ _ hsurvivor hde.1 hde.2 hrest

/-! ## Whole unifications -/

section Whole

variable {ρ : Correspondence} {s t : Session} (h : s.Corresponds ρ t) (hs : s.graph.Linked)
  (ht : t.graph.Linked) {a b a' b' : NodeId} (ha : ρ a a') (hb : ρ b b') (budget : Nat)
include h hs ht ha hb

/-- The budget suffices on both sides or on none, both fail or none, and the structures of two
episodes that succeed are alike. -/
theorem unifyNodes_alike : Option.Rel (fun p q => p.1 = q.1 ∧
      (p.1 = true → ∃ ρ', ρ ≤ ρ' ∧ p.2.Corresponds ρ' q.2))
    (s.unifyNodes budget a b) (t.unifyNodes budget a' b') := by
  obtain ⟨hlta, hlta'⟩ := h.graph.lt ha
  obtain ⟨hltb, hltb'⟩ := h.graph.lt hb
  have hstart : Linking s s [.pair a b] := linking_start hs ⟨hlta, hltb⟩
  have hstart' : Linking t t [.pair a' b'] := linking_start ht ⟨hlta', hltb'⟩
  have hends := (inStep_unifyTurn h.sound.rooted h.sound'.rooted ρ).run budget
    ⟨hstart, hstart', ρ, le_rfl, h, .cons (.pair ha hb) .nil⟩
  unfold unifyNodes
  revert hends
  generalize Agenda.run unifyTurn budget s [.pair a b] = ending
  generalize Agenda.run unifyTurn budget t [.pair a' b'] = ending'
  intro hends
  cases hends with
  | done hdone =>
    obtain ⟨-, -, ρ', hle, halike, -⟩ := hdone
    exact .some ⟨rfl, fun _ => ⟨ρ', hle, halike⟩⟩
  | halted => exact .some ⟨rfl, nofun⟩
  | spent => exact .none

/-- Nodes that correspond unify on both sides, or on none. -/
theorem unifiable_eq : (s.unifiable budget a b).map Prod.fst =
    (t.unifiable budget a' b').map Prod.fst := by
  have hunified := unifyNodes_alike h hs ht ha hb budget
  simp only [unifiable, Option.map_map, Function.comp_def]
  generalize s.unifyNodes budget a b = answer, t.unifyNodes budget a' b' = answer' at hunified
  cases hunified with
  | none => rfl
  | some hsame => exact congrArg some hsame.1

/-- The results of unifications, copied out through one restrictor, are laid out alike, if there
are any. -/
theorem unifyInto_alike (r : Restrictor) :
    Option.Rel (fun p q => Option.Rel
        (fun n m => p.2.graph.layout.Isomorphic n q.2.graph.layout m) p.1 q.1)
      (s.unifyInto budget a b r) (t.unifyInto budget a' b' r) := by
  obtain ⟨hlta, hlta'⟩ := h.graph.lt ha
  obtain ⟨hltb, hltb'⟩ := h.graph.lt hb
  have hunified := unifyNodes_alike h hs ht ha hb budget
  have hlinked := fun unified s' =>
    @linking_unifyNodes s s' ⟨hs, h.sound.rooted⟩ a b hlta hltb budget unified
  have hlinked' := fun unified t' =>
    @linking_unifyNodes t t' ⟨ht, h.sound'.rooted⟩ a' b' hlta' hltb' budget unified
  rw [unifyInto_eq, unifyInto_eq]
  generalize s.unifyNodes budget a b = answer, t.unifyNodes budget a' b' = answer'
    at hunified hlinked hlinked'
  cases hunified with
  | none => exact .none
  | @some p q hsame =>
    obtain ⟨-, hext, hs₁⟩ := hlinked p.1 p.2 rfl
    obtain ⟨-, hext', ht₁⟩ := hlinked' q.1 q.2 rfl
    refine .some (concluded_alike r hsame.1 ⟨hext.size_le, hs₁⟩ ⟨hext'.size_le, ht₁⟩ fun htrue => ?_)
    obtain ⟨ρ', hle, h₁⟩ := hsame.2 htrue
    exact ⟨ρ', hle _ _ ha, h₁⟩

end Whole

end Session

end FeatureLogic
