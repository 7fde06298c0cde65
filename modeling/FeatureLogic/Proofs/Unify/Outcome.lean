import FeatureLogic.Proofs.Session.Copies
import FeatureLogic.Proofs.Unify.Completion
import FeatureLogic.Proofs.Unify.Termination

/-!
How a unification ends: with the classes that the steps have made, from which the result is copied
unless they have a cycle, or where two types clash (`Session.Ended`).
-/

namespace FeatureLogic

namespace Session

section Outcome

variable {s s₁ : Session} (hs : s.Sound) (he : s.graph.Entangled) {a b : Nat}
  (ha : a < s.graph.size) (hb : b < s.graph.size) {budget : Nat}

/-! ## The classes at the end -/

section

include hs he ha hb

/-- What holds before a unification and is kept by its steps holds at its end. -/
theorem invariant_of_done (Inv : Web → List UnifyTask → Prop)
    (hstep : ∀ {W task W' tasks waiting}, W.Sound → (∀ t ∈ task :: waiting, t.Within W.size) →
      Inv W (task :: waiting) → UnifyStep s.grammar W task W' tasks → Inv W' (tasks ++ waiting))
    (hstart : Inv (s.graph.web.withShape s.graph.web.settled) [.pair a b])
    (hrun : Agenda.run unifyTurn budget s [.pair a b] = .done s₁) :
    Unifying s s₁ [] ∧ ∃ S, Standing s.graph.web.settled s s₁ S ∧
      Inv (s₁.graph.web.withShape S) [] :=
  (keeps_unifying s.graph.web.settled hstep).done ⟨unifying_start hs he ha hb, _,
    ⟨.refl _ _, he.web_sound.settled_lt⟩, hstart⟩ hrun

/-- What holds before a unification and is kept by its steps holds when two types clash. -/
theorem invariant_of_halted (Inv : Web → List UnifyTask → Prop)
    (hstep : ∀ {W task W' tasks waiting}, W.Sound → (∀ t ∈ task :: waiting, t.Within W.size) →
      Inv W (task :: waiting) → UnifyStep s.grammar W task W' tasks → Inv W' (tasks ++ waiting))
    (hstart : Inv (s.graph.web.withShape s.graph.web.settled) [.pair a b])
    {waiting : List UnifyTask}
    (hrun : Agenda.run unifyTurn budget s [.pair a b] = .halted s₁ () waiting) :
    ∃ W left right, W.Sound ∧ Inv W (.pair left right :: waiting) ∧ W.rep left ≠ W.rep right ∧
      s.grammar.lattice.glb (W.type (W.rep left)) (W.type (W.rep right)) = .bottom := by
  obtain ⟨s₂, task, ⟨h, S, hS, hinv⟩, ht⟩ :=
    (keeps_unifying s.graph.web.settled hstep).halted ⟨unifying_start hs he ha hb, _,
      ⟨.refl _ _, he.web_sound.settled_lt⟩, hstart⟩ hrun
  obtain ⟨left, right, rfl, hne, hbottom, -⟩ := unifyTurn_halt h ht
  exact ⟨s₂.graph.web.withShape S, left, right, h.graph.web_sound.withShape hS.value_lt, hinv, hne,
    hbottom⟩

theorem sound_of_halted {waiting : List UnifyTask}
    (hrun : Agenda.run unifyTurn budget s [.pair a b] = .halted s₁ () waiting) :
    s₁.grammar.Sound ∧ s.grammar.Same s₁.grammar ∧ s₁.graph.Sound ∧ s.graph.Extends s₁.graph := by
  have hkeeps : Agenda.Keeps unifyTurn (Unifying s) := ⟨fun h ht => (unifyTurn_next h ht).2⟩
  obtain ⟨s₂, task, h, ht⟩ := hkeeps.halted (unifying_start hs he ha hb) hrun
  obtain ⟨left, right, -, -, -, hgraph, hsound, hsame⟩ := unifyTurn_halt h ht
  rw [hgraph]
  exact ⟨hsound, hsame, h.graph.sound, h.extends_start⟩

theorem unifying_of_done (hrun : Agenda.run unifyTurn budget s [.pair a b] = .done s₁) :
    Unifying s s₁ [] :=
  (invariant_of_done hs he ha hb (fun _ _ => True) (fun _ _ _ _ => trivial) trivial hrun).1

/-- Nothing is lost at the end, and nodes that were one class are one class still. -/
theorem lossless_of_done {x y : NodeId}
    (hxy : s.graph.web.Joined [.pair a b] x y)
    (hrun : Agenda.run unifyTurn budget s [.pair a b] = .done s₁) :
    ∃ S, Standing s.graph.web.settled s s₁ S ∧
      Lossless s.hierarchy x y (s₁.graph.web.withShape S) [] :=
  (invariant_of_done hs he ha hb _ (fun hW _ h hstep => h.step hs.grammar hW hstep)
    (lossless_start he.web_sound _ hxy) hrun).2

/-- A class at the end is that of the node that stood for it before. -/
theorem rep_rep_of_done (hrun : Agenda.run unifyTurn budget s [.pair a b] = .done s₁) (x : NodeId) :
    s₁.graph.web.rep (s.graph.web.rep x) = s₁.graph.web.rep x := by
  have hjoined : s.graph.web.Joined [.pair a b] (s.graph.web.rep x) x :=
    Web.joined_of_rep_eq (he.web_sound.rep_rep x)
  obtain ⟨S, -, h⟩ := lossless_of_done hs he ha hb hjoined hrun
  exact h.rep_eq

/-- The classes of both operands are one at the end. -/
theorem rep_of_done (hrun : Agenda.run unifyTurn budget s [.pair a b] = .done s₁) :
    s₁.graph.web.rep a = s₁.graph.web.rep b := by
  obtain ⟨S, -, h⟩ := lossless_of_done hs he ha hb (Web.joined_of_pair (List.mem_singleton.2 rfl))
    hrun
  exact h.rep_eq

/-- A class of a possible type has one at the end. -/
theorem type_ne_bottom_of_done (hrun : Agenda.run unifyTurn budget s [.pair a b] = .done s₁) {x : Nat}
    (hx : x < s.graph.size) (htype : s.graph.web.type (s.graph.web.rep x) ≠ .bottom) :
    s₁.graph.web.type (s₁.graph.web.rep x) ≠ .bottom := by
  obtain ⟨hu, S, hS, -, h⟩ := invariant_of_done hs he ha hb
    (fun W _ => x < W.size ∧ W.type (W.rep x) ≠ .bottom)
    (fun hW _ ⟨hlt, h⟩ hstep =>
      ⟨Nat.lt_of_lt_of_le hlt hstep.grows.size_le, hstep.type_ne_bottom hW hlt h⟩)
    ⟨hx, htype⟩ hrun
  exact h

/-- At the end the structure that had come about below any node maps to that of the classes. -/
theorem maps_of_done (hrun : Agenda.run unifyTurn budget s [.pair a b] = .done s₁) {x : Nat}
    (hx : x < s.graph.size) :
    s.graph.web.view.Maps s.hierarchy (s.graph.web.rep x) s₁.graph.web.view s₁.graph.web.rep := by
  have hW := he.web_sound
  have hu := unifying_of_done hs he ha hb hrun
  obtain ⟨S, hS, hl⟩ := lossless_of_done hs he ha hb (.refl x) hrun
  have hmaps := hl.maps (hu.graph.web_sound.withShape hS.value_lt)
    (Nat.lt_of_lt_of_le (hW.rep_lt hx) hu.extends_start.size_le)
  -- the structure that stands for the committed one is the one at the start
  have hagree : ∀ {n : Nat}, s.graph.web.view.Reach (s.graph.web.rep x) n →
      S.type n = s.graph.web.view.type n ∧ S.value? n = s.graph.web.view.value? n := by
    intro n hn
    obtain ⟨hlt, hself⟩ := hW.reach_lt hx hn
    refine ⟨(hS.agrees.type_eq hlt).trans ?_, (hS.agrees.value_eq hlt).trans ?_⟩
    · exact congrArg s.graph.web.type hself
    · exact congrArg s.graph.web.view.value? hself
  have hid : s.graph.web.view.Maps s.hierarchy (s.graph.web.rep x) S id := by
    refine ⟨fun hn => ?_, fun hn hf => ?_⟩
    · rw [id, (hagree hn).1]
      exact Hierarchy.le_refl
    · rw [id, (hagree hn).2]
      exact hf
  exact hid.comp hs.grammar.lattice.hierarchy hmaps

section Guided

variable {T : Shape} {x : NodeId} {μ : NodeId → NodeId} (hT : T.Completed s.grammar x)
  (hleft : s.graph.web.view.Maps s.hierarchy (s.graph.web.rep a) T μ)
  (hright : s.graph.web.view.Maps s.hierarchy (s.graph.web.rep b) T μ)
  (hroot : μ (s.graph.web.rep a) = x) (heq : μ (s.graph.web.rep a) = μ (s.graph.web.rep b))
include hT hleft hright hroot heq

/-- Whatever both operands can be mapped to, what comes about can be mapped to as well. -/
theorem subsumes_of_done (hrun : Agenda.run unifyTurn budget s [.pair a b] = .done s₁) :
    s₁.graph.web.view.Subsumes s.hierarchy (s₁.graph.web.rep a) T x := by
  obtain ⟨hu, S, hS, μ, h⟩ := invariant_of_done hs he ha hb
    (fun W tasks => ∃ μ, Web.Guided s.hierarchy s.graph.web a b T x μ W tasks)
    (fun hW _ ⟨_, h⟩ hstep => h.step hs.grammar hW hT hstep)
    ⟨_, (Web.guided_start he.web_sound ha hb hleft hright hroot heq).withShape _⟩ hrun
  exact h.subsumes (hu.graph.web_sound.withShape hS.value_lt)

/-- Types do not clash when both operands can be mapped to one structure without impossible
types. -/
theorem run_ne_halted (htype : ∀ {n}, T.Reach x n → T.type n ≠ .bottom) (answer : Unit)
    (waiting : List UnifyTask) :
    Agenda.run unifyTurn budget s [.pair a b] ≠ .halted s₁ answer waiting := by
  intro hrun
  obtain ⟨W, left, right, hW, ⟨μ, h⟩, -, hbottom⟩ := invariant_of_halted hs he ha hb
    (fun W tasks => ∃ μ, Web.Guided s.hierarchy s.graph.web a b T x μ W tasks)
    (fun hW _ ⟨_, h⟩ hstep => h.step hs.grammar hW hT hstep)
    ⟨_, (Web.guided_start he.web_sound ha hb hleft hright hroot heq).withShape _⟩ hrun
  exact h.glb_ne_bottom hs.grammar hW htype hbottom

end Guided

/-- Where all prototypes and operands are wellformed, so are the classes. -/
theorem wellformed_of_done (hproto : s.grammar.WellformedPrototypes)
    (hleft : ∀ {n}, s.graph.web.view.Reach (s.graph.web.rep a) n →
      s.graph.web.view.Wellformed s.grammar n)
    (hright : ∀ {n}, s.graph.web.view.Reach (s.graph.web.rep b) n →
      s.graph.web.view.Wellformed s.grammar n)
    (hrun : Agenda.run unifyTurn budget s [.pair a b] = .done s₁) {n : NodeId}
    (hn : s₁.graph.web.view.Reach (s₁.graph.web.rep a) n) :
    s₁.graph.web.view.Wellformed s.grammar n := by
  obtain ⟨hu, S, hS, h, hl⟩ := invariant_of_done hs he ha hb
    (fun W tasks => Web.Completing s.grammar s.graph.web a b W tasks ∧
      Lossless s.hierarchy a b W tasks)
    (fun hW _ ⟨h, hl⟩ hstep => ⟨h.step hs.grammar hW hproto hstep, hl.step hs.grammar hW hstep⟩)
    ⟨Web.completing_start hs.grammar he.web_sound ha hb hleft hright,
      lossless_start he.web_sound _ (Web.joined_of_pair (List.mem_singleton.2 rfl))⟩ hrun
  exact h.wellformed hs.grammar (hu.graph.web_sound.withShape hS.value_lt) hl hn

/-- Where no operand has an impossible type, no class has. -/
theorem possible_of_done
    (hleft : ∀ {n}, s.graph.web.view.Reach (s.graph.web.rep a) n → s.graph.web.view.type n ≠ .bottom)
    (hright : ∀ {n}, s.graph.web.view.Reach (s.graph.web.rep b) n →
      s.graph.web.view.type n ≠ .bottom)
    (hrun : Agenda.run unifyTurn budget s [.pair a b] = .done s₁) {n : NodeId}
    (hn : s₁.graph.web.view.Reach (s₁.graph.web.rep a) n) :
    s₁.graph.web.view.type n ≠ .bottom := by
  have hstart : Web.Possible s.graph.web a b s.graph.web := by
    intro n hn hself
    have hreach := hn.start.2
    rw [hself] at hreach
    exact hreach.elim hleft hright
  obtain ⟨hu, S, hS, h, hpossible⟩ := invariant_of_done hs he ha hb
    (fun W tasks => Web.Closed s.graph.web a b W tasks ∧ Web.Possible s.graph.web a b W)
    (fun hW _ ⟨h, hpossible⟩ hstep =>
      ⟨h.step hW hstep, hpossible.step hs.grammar h hstep⟩)
    ⟨(Web.closed_start he.web_sound ha hb).withShape _, hstart⟩ hrun
  obtain ⟨hregion, hself⟩ := h.of_reach (hu.graph.web_sound.withShape hS.value_lt) h.left hn
  exact hpossible hregion hself

end

/-! ## Results -/

/-- How a unification of `a` and `b` ends, with its answer and the session afterwards. -/
inductive Ended (s : Session) (a b : NodeId) (r : Restrictor) (budget : Nat) :
    Option NodeId → Session → Prop
  /-- The classes are copied. -/
  | result {s₁ s' : Session} {k : Nat}
    (hrun : Agenda.run unifyTurn budget s [.pair a b] = .done s₁) (hk : k < s'.graph.size)
    (hcopy : r = unrestricted → s₁.graph.web.view.Acyclic (s₁.graph.web.rep a) ∧
      s₁.graph.web.view.Isomorphic (s₁.graph.web.rep a) s'.shape k)
    (hnew : ∀ {n : Nat}, s'.shape.Reach k n → s.graph.size ≤ n) :
    Ended s a b r budget (some k) s'
  /-- The classes have a cycle. -/
  | cyclic {s₁ s' : Session} (hrun : Agenda.run unifyTurn budget s [.pair a b] = .done s₁)
    (hcycle : ¬ s₁.graph.web.view.Acyclic (s₁.graph.web.rep a)) : Ended s a b r budget none s'
  /-- Two types clash. -/
  | clash {s₁ s' : Session} {waiting : List UnifyTask}
    (hrun : Agenda.run unifyTurn budget s [.pair a b] = .halted s₁ () waiting) :
    Ended s a b r budget none s'

theorem blame_frame (waiting : List UnifyTask) (s : Session) :
    (waiting.foldl blame s).graph = s.graph ∧ (waiting.foldl blame s).grammar = s.grammar := by
  induction waiting generalizing s with
  | nil => exact ⟨rfl, rfl⟩
  | cons task rest ih =>
    obtain ⟨h₁, h₂⟩ := ih (s.blame task)
    have hframe : (s.blame task).graph = s.graph ∧ (s.blame task).grammar = s.grammar := by
      cases task <;> exact ⟨rfl, rfl⟩
    exact ⟨h₁.trans hframe.1, h₂.trans hframe.2⟩

/-- A unification that comes to its end leaves the classes, or types clash, and more turns do not
change that. -/
theorem unifyNodes_cases {fuel : Nat}
    (h : ∀ s' waiting, Agenda.run unifyTurn fuel s [.pair a b] ≠ .spent s' waiting) :
    (∃ s', Agenda.run unifyTurn fuel s [.pair a b] = .done s' ∧
      ∀ budget ≥ fuel, s.unifyNodes budget a b = some (true, s')) ∨
    ∃ s₁ waiting, Agenda.run unifyTurn fuel s [.pair a b] = .halted s₁ () waiting ∧
      ∀ budget ≥ fuel, s.unifyNodes budget a b = some (false, waiting.foldl blame s₁) := by
  have hsame : ∀ budget ≥ fuel, s.unifyNodes budget a b = s.unifyNodes fuel a b := by
    intro budget hbudget
    obtain ⟨extra, rfl⟩ := Nat.exists_eq_add_of_le hbudget
    simp only [unifyNodes, Agenda.run_add h]
  cases hrun : Agenda.run unifyTurn fuel s [.pair a b] with
  | spent s₁ waiting => exact absurd hrun (h s₁ waiting)
  | done s₁ =>
    refine .inl ⟨s₁, rfl, fun budget hbudget => (hsame budget hbudget).trans ?_⟩
    rw [unifyNodes, hrun]
  | halted s₁ answer waiting =>
    refine .inr ⟨s₁, waiting, rfl, fun budget hbudget => (hsame budget hbudget).trans ?_⟩
    rw [unifyNodes, hrun]

theorem entangle_cases {fuel : Nat}
    (h : ∀ s' waiting, Agenda.run unifyTurn fuel s [.pair a b] ≠ .spent s' waiting) :
    (∃ s', Agenda.run unifyTurn fuel s [.pair a b] = .done s' ∧
      ∀ budget ≥ fuel, s.entangle budget a b = some (true, s')) ∨
    ∃ s₁ waiting s', Agenda.run unifyTurn fuel s [.pair a b] = .halted s₁ () waiting ∧
      ∀ budget ≥ fuel, s.entangle budget a b = some (false, s') := by
  rcases unifyNodes_cases h with ⟨s₁, hrun, hall⟩ | ⟨s₁, waiting, hrun, hall⟩
  · refine .inl ⟨s₁, hrun, fun budget hbudget => ?_⟩
    rw [entangle, hall budget hbudget]
    rfl
  · refine .inr ⟨s₁, waiting, (waiting.foldl blame s₁).abandon s.graph.size, hrun,
      fun budget hbudget => ?_⟩
    rw [entangle, hall budget hbudget]
    rfl

theorem entangle_of_ne_spent {fuel : Nat}
    (h : ∀ s' waiting, Agenda.run unifyTurn fuel s [.pair a b] ≠ .spent s' waiting) :
    ∃ answer s', ∀ budget ≥ fuel, s.entangle budget a b = some (answer, s') := by
  rcases entangle_cases h with ⟨s', -, hall⟩ | ⟨-, -, s', -, hall⟩
  · exact ⟨true, s', hall⟩
  · exact ⟨false, s', hall⟩

/-- More turns do not change an answer. -/
theorem unifyNodes_of_le {budget' : Nat} (hle : budget ≤ budget') {answer : Bool × Session}
    (h : s.unifyNodes budget a b = some answer) : s.unifyNodes budget' a b = some answer := by
  have hended : ∀ s' waiting, Agenda.run unifyTurn budget s [.pair a b] ≠ .spent s' waiting := by
    intro s' waiting hrun
    rw [unifyNodes, hrun] at h
    cases h
  rcases unifyNodes_cases hended with ⟨s', -, hall⟩ | ⟨s₁, waiting, -, hall⟩
  · rw [← h, hall budget (Nat.le_refl _), hall budget' hle]
  · rw [← h, hall budget (Nat.le_refl _), hall budget' hle]

theorem entangle_of_le {budget' : Nat} (hle : budget ≤ budget') {answer : Bool × Session}
    (h : s.entangle budget a b = some answer) : s.entangle budget' a b = some answer := by
  obtain ⟨ended, hended, rfl⟩ := Option.map_eq_some_iff.1 h
  rw [entangle, unifyNodes_of_le hle hended]
  rfl

theorem unifyInto_of_ne_spent {fuel : Nat}
    (h : ∀ s' waiting, Agenda.run unifyTurn fuel s [.pair a b] ≠ .spent s' waiting)
    (r : Restrictor) :
    ∃ answer s', ∀ budget ≥ fuel, s.unifyInto budget a b r = some (answer, s') := by
  obtain ⟨unified, s₁, hentangle⟩ := entangle_of_ne_spent h
  exact ⟨_, _, fun budget hbudget => by rw [unifyInto, hentangle budget hbudget]; rfl⟩

/-- An endless unification has no answer, whatever its budget. -/
theorem entangle_of_endless (h : Agenda.Endless unifyTurn s [.pair a b]) (budget : Nat) :
    s.entangle budget a b = none := by
  obtain ⟨s', waiting, hrun⟩ := h budget
  rw [entangle, unifyNodes, hrun]
  rfl

include hs he ha hb

/-- Every unification that comes to an end leaves a sound session without an episode. -/
theorem ended_unifyInto {r : Restrictor} {answer : Option NodeId} {s' : Session}
    (h : s.unifyInto budget a b r = some (answer, s')) :
    s'.Sound ∧ s'.AtRest ∧ s.Later s' ∧ Ended s a b r budget answer s' := by
  simp only [unifyInto, entangle, unifyNodes] at h
  cases hrun : Agenda.run unifyTurn budget s [.pair a b] with
  | spent s₁ waiting =>
    rw [hrun] at h
    cases h
  | done s₁ =>
    rw [hrun] at h
    have hu := unifying_of_done hs he ha hb hrun
    obtain ⟨answer', s₂, heq, hsound, hrest, hlater, hsome, hnone⟩ := extractOver_spec hs hu.grammar
      hu.same hu.graph hu.extends_start (Nat.lt_of_lt_of_le ha hu.extends_start.size_le) r
    simp only [Option.map_some, if_true, heq] at h
    cases h
    refine ⟨hsound, hrest, hlater, ?_⟩
    cases answer with
    | none => exact .cyclic hrun (hnone rfl)
    | some k => exact .result hrun (hsome k rfl).1 (hsome k rfl).2.1 (hsome k rfl).2.2
  | halted s₁ answer' waiting =>
    rw [hrun] at h
    simp only [Option.map_some, Bool.false_eq_true, if_false] at h
    cases h
    obtain ⟨hsound, hsame, hgraph, hext⟩ := sound_of_halted hs he ha hb hrun
    obtain ⟨hframe, hframe'⟩ := blame_frame waiting s₁
    obtain ⟨hvoid, hrest⟩ := hgraph.invalidate
    have hext' := hext.trans (Graph.extends_invalidate s₁.graph)
    refine ⟨⟨?_, ?_⟩, ?_, ⟨?_, ?_⟩, .clash hrun⟩
    · exact hframe' ▸ hsound
    · simp only [abandon, mapGraph, hframe]
      exact hext'.sound_truncate hs.graph hvoid
    · simp only [AtRest, abandon, mapGraph, hframe]
      exact hrest.truncate hvoid.stamped _
    · exact hframe' ▸ hsame
    · simp only [abandon, mapGraph, hframe]
      exact hext'.truncate

end Outcome

end Session

end FeatureLogic
