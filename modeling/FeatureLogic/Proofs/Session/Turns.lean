import FeatureLogic.Proofs.Session.Sound
import FeatureLogic.Session.Unify

/-!
The turns of a unification. What a turn can do is said once, with all that it depends on
(`Session.UnifyTurned`); whatever a unification keeps is read off it, one case for every way in
which a turn can go.
-/

namespace FeatureLogic

namespace Session

variable {s : Session}

/-- The session after the question for the type of two nodes. -/
def asked (s : Session) (first second : NodeId) : Session :=
  (s.ask fun l => l.unify (s.graph.currentType first) (s.graph.currentType second)).2

/-- The type that two nodes have in common. -/
def common (s : Session) (first second : NodeId) : TypeId :=
  (s.ask fun l => l.unify (s.graph.currentType first) (s.graph.currentType second)).1

/-- The session in which the first of two nodes has the type of both. -/
def typed (s : Session) (first second : NodeId) : Session :=
  (s.asked first second).mapGraph (·.setCurrentType first (s.common first second))

/-- Whether two nodes that get the type of both have not met its prototype. -/
def needed (s : Session) (first second : NodeId) : Bool :=
  needsCompletion (s.common first second) (s.graph.currentType first) (s.graph.currentType second)
    ((s.typed first second).graph.hasCurrentEdges first)
    ((s.typed first second).graph.hasCurrentEdges second)

theorem common_eq_glb (hs : s.grammar.Sound) (first second : NodeId) : s.common first second =
    s.grammar.lattice.glb (s.graph.currentType first) (s.graph.currentType second) :=
  hs.lattice.unify_eq_glb ..

theorem learned_ask_unify (s : Session) (t u : TypeId) :
    s.grammar.Learned (s.ask fun l => l.unify t u).2.grammar :=
  Grammar.learned_of_lattice _ fun hl => ⟨hl.unify t u, Lattice.hierarchy_unify ..⟩

theorem learned_typed (s : Session) (first second : NodeId) :
    s.grammar.Learned (s.typed first second).grammar :=
  s.learned_ask_unify ..

@[simp] theorem size_typed (s : Session) (first second : NodeId) :
    (s.typed first second).graph.size = s.graph.size :=
  Graph.size_note ..

/-! ## Absorbing -/

/-- The three ways in which one of two nodes absorbs the other. -/
inductive Absorbs (s : Session) (left right first second : NodeId) (type : TypeId) :
    Session → List UnifyTask → Prop
  /-- The second node has no edges to hand over. -/
  | bare (hsecond : s.graph.hasCurrentEdges second = false) :
    s.Absorbs left right first second type (s.mapGraph (·.setForward second first)) []
  /-- Only the second node has edges, so it is the one that stays. -/
  | turned (hsecond : s.graph.hasCurrentEdges second = true)
    (hfirst : s.graph.hasCurrentEdges first = false) :
    s.Absorbs left right first second type
      (s.mapGraph fun g => (g.setCurrentType second type).setForward first second) []
  | both (hsecond : s.graph.hasCurrentEdges second = true)
    (hfirst : s.graph.hasCurrentEdges first = true) :
    s.Absorbs left right first second type (s.mapGraph (·.setForward second first))
      [.merge left right first (s.graph.currentEdges second)]

theorem exists_absorb (s : Session) (left right first second : NodeId) (type : TypeId) :
    ∃ s' tasks, s.absorb left right first second type = .next s' tasks ∧
      s.Absorbs left right first second type s' tasks := by
  cases hsecond : s.graph.hasCurrentEdges second with
  | false => exact ⟨_, _, by simp [absorb, mapGraph, hsecond], .bare hsecond⟩
  | true =>
    cases hfirst : s.graph.hasCurrentEdges first with
    | false => exact ⟨_, _, by simp [absorb, mapGraph, hsecond, hfirst], .turned hsecond hfirst⟩
    | true => exact ⟨_, _, by simp [absorb, mapGraph, hsecond, hfirst], .both hsecond hfirst⟩

/-! ## Turns -/

/-- How two nodes are unified that do not stand for the same one. -/
theorem unifyPair_of_ne {left right first second : NodeId} {type : TypeId} {typed : Session}
    {needed : Bool} (hfirst : first = s.graph.deref left) (hsecond : second = s.graph.deref right)
    (htype : type = s.common first second)
    (htyped : typed = (s.asked first second).mapGraph (·.setCurrentType first type))
    (hneeded : needed = needsCompletion type (s.graph.currentType first)
      (s.graph.currentType second) (typed.graph.hasCurrentEdges first)
      (typed.graph.hasCurrentEdges second))
    (hne : first ≠ second) : s.unifyPair left right =
      if type.isBottom then .halt ((s.asked first second).record left right
        (if first ≠ left ∨ second ≠ right then .coreference else .type)) ()
      else if needed then
        match s.grammar.featuredPrototype? type with
        | some root => .next (typed.mapGraph (·.copyFrom s.grammar.prototypes root))
            [.pair first typed.graph.size, .resume left right first second]
        | none => typed.absorb left right first second type
      else typed.absorb left right first second type := by
  subst hfirst hsecond htype htyped hneeded
  exact if_neg hne

/-- What a turn of a unification can do. -/
inductive UnifyTurned (s : Session) : UnifyTask → Turn Session UnifyTask Unit → Prop
  /-- The two nodes stand for the same one already. -/
  | met {left right : NodeId} (heq : s.graph.deref left = s.graph.deref right) :
    s.UnifyTurned (.pair left right) (.next s [])
  /-- The two nodes have no type in common. -/
  | clashed {left right first second : NodeId} (hfirst : first = s.graph.deref left)
    (hsecond : second = s.graph.deref right) (hne : first ≠ second)
    (hbottom : s.common first second = .bottom) (kind : FailureKind) :
    s.UnifyTurned (.pair left right) (.halt ((s.asked first second).record left right kind) ())
  /-- One of the two nodes absorbs the other. -/
  | absorbed {left right first second : NodeId} {s' : Session} {tasks : List UnifyTask}
    (hfirst : first = s.graph.deref left) (hsecond : second = s.graph.deref right)
    (hne : first ≠ second) (hbottom : s.common first second ≠ .bottom)
    (hneeded : s.needed first second = false ∨
      s.grammar.featuredPrototype? (s.common first second) = none)
    (habsorbs : (s.typed first second).Absorbs left right first second (s.common first second)
      s' tasks) :
    s.UnifyTurned (.pair left right) (.next s' tasks)
  /-- The first of the two is to be unified with a copy of the prototype before. -/
  | completed {left right first second root : NodeId} (hfirst : first = s.graph.deref left)
    (hsecond : second = s.graph.deref right) (hne : first ≠ second)
    (hbottom : s.common first second ≠ .bottom) (hneeded : s.needed first second = true)
    (hroot : s.grammar.featuredPrototype? (s.common first second) = some root) :
    s.UnifyTurned (.pair left right)
      (.next ((s.typed first second).mapGraph (·.copyFrom s.grammar.prototypes root))
        [.pair first (s.typed first second).graph.size, .resume left right first second])
  /-- All edges have been handed over. -/
  | merged {left right survivor : NodeId} : s.UnifyTurned (.merge left right survivor []) (.next s [])
  /-- The survivor has an edge for the feature. -/
  | shared {left right survivor existing : NodeId} {e : Edge} {rest : List Edge}
    (hexisting : s.graph.currentEdge? (s.graph.deref survivor) e.feature = some existing) :
    s.UnifyTurned (.merge left right survivor (e :: rest))
      (.next s [.pair existing e.target, .merge left right survivor rest])
  /-- The survivor gains the edge. -/
  | gained {left right survivor : NodeId} {e : Edge} {rest : List Edge}
    (hnone : s.graph.currentEdge? (s.graph.deref survivor) e.feature = none) :
    s.UnifyTurned (.merge left right survivor (e :: rest))
      (.next (s.mapGraph (·.addPending (s.graph.deref survivor) e))
        [.merge left right survivor rest])
  | resumed {left right first second : NodeId} :
    s.UnifyTurned (.resume left right first second) (.next s [.pair first second])

theorem unifyTurned_pair (s : Session) (left right : NodeId) :
    s.UnifyTurned (.pair left right) (s.unifyPair left right) := by
  by_cases heq : s.graph.deref left = s.graph.deref right
  · have hpair : s.unifyPair left right = .next s [] := if_pos heq
    rw [hpair]
    exact .met heq
  obtain ⟨s', tasks, habsorb, habsorbs⟩ :=
    (s.typed (s.graph.deref left) (s.graph.deref right)).exists_absorb left right
      (s.graph.deref left) (s.graph.deref right) (s.common _ _)
  rw [unifyPair_of_ne rfl rfl rfl (rfl : s.typed _ _ = _) (rfl : s.needed _ _ = _) heq]
  by_cases hbottom : s.common (s.graph.deref left) (s.graph.deref right) = .bottom
  · rw [if_pos (by simpa using hbottom)]
    exact .clashed rfl rfl heq hbottom _
  rw [if_neg (by simpa using hbottom)]
  cases hneeded : s.needed (s.graph.deref left) (s.graph.deref right) with
  | false =>
    rw [if_neg Bool.false_ne_true, habsorb]
    exact .absorbed rfl rfl heq hbottom (.inl hneeded) habsorbs
  | true =>
    rw [if_pos rfl]
    cases hroot : s.grammar.featuredPrototype?
        (s.common (s.graph.deref left) (s.graph.deref right)) with
    | none =>
      dsimp only
      rw [habsorb]
      exact .absorbed rfl rfl heq hbottom (.inr hroot) habsorbs
    | some root => exact .completed rfl rfl heq hbottom hneeded hroot

theorem unifyTurned (s : Session) (task : UnifyTask) : s.UnifyTurned task (s.unifyTurn task) := by
  cases task with
  | pair left right => exact s.unifyTurned_pair left right
  | resume left right first second => exact .resumed
  | merge left right survivor incoming =>
    cases incoming with
    | nil => exact .merged
    | cons e rest =>
      rw [unifyTurn, handOver]
      cases hedge : s.graph.currentEdge? (s.graph.deref survivor) e.feature with
      | some existing => exact .shared hedge
      | none => exact .gained hedge

end Session

end FeatureLogic
