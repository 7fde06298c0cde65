import FeatureLogic.Proofs.Unify.Laws
import FeatureLogic.Proofs.Unify.Meeting

/-!
Several unifications in a row. Nodes can be unified into one node without copies in between, in one
episode (`Session.chained`), or each result can be copied out before the next step
(`Session.stepwise`). Where no prototype has features and no two of the structures have a node in
common, both give the meet of all structures (`Session.Answers`), so they agree, and the order of
the nodes does not matter (`Session.chained_alike_stepwise`).
-/

open Relation

namespace FeatureLogic.Session

/-! ## The two ways -/

/-- Unifies the nodes of a list into `a` one after the other, as long as they unify, and leaves the
result entangled with them. -/
def entangleAll (budget : Nat) (s : Session) (a : NodeId) : List NodeId → Option (Bool × Session)
  | [] => some (true, s)
  | x :: xs =>
    match s.entangle budget a x with
    | some (true, s) => s.entangleAll budget a xs
    | failed => failed

/-- Unifies the nodes of a list into `a` in one episode and copies the result out. -/
def chained (budget : Nat) (s : Session) (a : NodeId) (xs : List NodeId) :
    Option (Option NodeId × Session) :=
  (s.entangleAll budget a xs).map fun (unified, s) =>
    if unified then
      let (answer, s) := s.extract a unrestricted
      (answer.toOption, s)
    else (none, s)

/-- Unifies the nodes of a list with `a` one after the other, each with the result of the one
before. -/
def stepwise (budget : Nat) (s : Session) (a : NodeId) :
    List NodeId → Option (Option NodeId × Session)
  | [] => some (some a, s)
  | x :: xs =>
    match s.unifyInto budget a x unrestricted with
    | some (some r, s) => s.stepwise budget r xs
    | failed => failed

section Budget

variable {s : Session} {a : NodeId} {xs : List NodeId} {budget budget' : Nat}
  (hle : budget ≤ budget')
include hle

/-- More turns for each unification do not change how a chain ends. -/
theorem entangleAll_of_le {answer : Bool × Session} (h : s.entangleAll budget a xs = some answer) :
    s.entangleAll budget' a xs = some answer := by
  induction xs generalizing s with
  | nil => exact h
  | cons x xs ih =>
    rw [entangleAll] at h
    cases hentangle : s.entangle budget a x with
    | none =>
      rw [hentangle] at h
      cases h
    | some first =>
      rw [entangleAll, entangle_of_le hle hentangle]
      rw [hentangle] at h
      obtain ⟨unified, s₁⟩ := first
      cases unified with
      | true => exact ih h
      | false => exact h

theorem chained_of_le {answer : Option NodeId × Session}
    (h : s.chained budget a xs = some answer) : s.chained budget' a xs = some answer := by
  obtain ⟨ending, hall, hanswer⟩ := Option.map_eq_some_iff.1 h
  exact Option.map_eq_some_iff.2 ⟨ending, entangleAll_of_le hle hall, hanswer⟩

end Budget

/-- The structures below two nodes have no node in common. -/
def Apart (s : Session) (a b : NodeId) : Prop := ∀ ⦃n⦄, s.shape.Reach a n → ¬ s.shape.Reach b n

theorem Apart.symm {s : Session} {a b : NodeId} (h : s.Apart a b) : s.Apart b a :=
  fun _ hb ha => h ha hb

/-! ## Answers -/

/-- The answer is the meet of the structures below the nodes of `A`, without cycles; there is none
where these structures have no bound without cycles. -/
def Answers (h : Hierarchy) (S : Shape) (A : Set NodeId)
    (answer : Option NodeId × Session) : Prop :=
  (∃ k μ, answer.1 = some k ∧ S.Meet h A answer.2.shape k μ ∧ answer.2.shape.Acyclic k) ∨
    (answer.1 = none ∧ ∀ {T y κ}, S.Bound h A T y κ → ¬ T.Acyclic y)

/-- Answers for the same structures are alike. -/
theorem Answers.alike {h : Hierarchy} {S : Shape} {A : Set NodeId}
    {first second : Option NodeId × Session} (hs : h.Sound) (h₁ : Answers h S A first)
    (h₂ : Answers h S A second) : Alike first second := by
  rcases h₁ with ⟨k, μ, hk, hmeet, hacyclic⟩ | ⟨hnone, hbound⟩
  · rcases h₂ with ⟨j, ν, hj, hmeet', -⟩ | ⟨-, hbound⟩
    · obtain ⟨a, ha⟩ := hmeet.nonempty
      exact .inr ⟨k, j, hk, hj, hmeet.isomorphic hs ha hmeet'⟩
    · exact absurd hacyclic (hbound hmeet.toBound)
  · rcases h₂ with ⟨j, ν, -, hmeet, hacyclic⟩ | ⟨hnone', -⟩
    · exact absurd hacyclic (hbound hmeet.toBound)
    · exact .inl ⟨hnone, hnone'⟩

theorem union_nil (A : Set NodeId) : A ∪ {x | x ∈ ([] : List NodeId)} = A := by
  ext y
  simp

theorem union_cons (A : Set NodeId) (x : NodeId) (xs : List NodeId) :
    A ∪ {y | y ∈ x :: xs} = insert x A ∪ {y | y ∈ xs} := by
  ext y
  simp [or_assoc, or_left_comm]

/-! ## In one episode -/

section Chain

variable {s s₁ s₂ : Session} {A : Set NodeId} {a : Nat}

/-- How far a chain of unifications into `a` has come: the class of `a` is the meet of the
structures below the nodes of `A`, made of their nodes, and what is apart from them is as it was. -/
structure Chaining (s : Session) (A : Set NodeId) (a : NodeId) (s₁ : Session) : Prop where
  unifying : Unifying s s₁ []
  meet : s.shape.Meet s.hierarchy A s₁.current (s₁.graph.web.rep a) s₁.graph.web.rep
  within : ∀ {n}, s₁.current.Reach (s₁.graph.web.rep a) n → s.shape.Below A n
  apart : ∀ {x : Nat}, x < s.graph.size → s.shape.ApartFrom A x →
    s.shape.Same x s₁.current ∧ ∀ {n}, s.shape.Reach x n → s₁.graph.web.rep n = n

theorem chaining_start (hs : s.Sound) (hr : s.AtRest) (a : NodeId) : s.Chaining {a} a s := by
  have hview : s.current = s.shape := hr.view_eq
  have hrep : s.graph.web.rep = id := funext hr.web_rep
  refine ⟨⟨hs.grammar, .refl _, Graph.entangled_of_atRest hs.graph hr, .refl _, by simp⟩, ?_, ?_,
    fun _ _ => ⟨fun _ _ => ⟨?_, ?_⟩, fun _ => hr.web_rep _⟩⟩
  · rw [hview, hrep]
    exact Shape.meet_self ..
  · rw [hview, hrep]
    exact Shape.below_singleton_iff.2
  · rw [hview]
  · rw [hview]

section Step

variable (h : s.Chaining A a s₁) (hs : s.Sound) (ha : a < s.graph.size)
  (hproto : ∀ t, s.grammar.featuredPrototype? t = none) {x : Nat} (hx : x < s.graph.size)
  (hapart : s.shape.ApartFrom A x)
include h

theorem Chaining.hierarchy_eq : s₁.hierarchy = s.hierarchy := h.unifying.same.hierarchy_eq

theorem Chaining.sound : s₁.Sound := ⟨h.unifying.grammar, h.unifying.graph.sound⟩

theorem Chaining.lt {n : Nat} (hn : n < s.graph.size) : n < s₁.graph.size :=
  Nat.lt_of_lt_of_le hn h.unifying.extends_start.size_le

theorem Chaining.featuredPrototype? (hproto : ∀ t, s.grammar.featuredPrototype? t = none)
    (t : TypeId) : s₁.grammar.featuredPrototype? t = none :=
  (h.unifying.same.featuredPrototype? t).trans (hproto t)

include hx hapart

/-- The next node stands for itself. -/
theorem Chaining.rep_eq : s₁.graph.web.rep x = x := (h.apart hx hapart).2 ReflTransGen.refl

/-- What has come about and what is below the next node have no node in common. -/
theorem Chaining.not_reach {n : NodeId} (hn : s₁.current.Reach (s₁.graph.web.rep a) n) :
    ¬ s₁.current.Reach x n :=
  fun hn' => hapart ((h.apart hx hapart).1.reach_iff.1 hn') (h.within hn)

include ha hproto

/-- Where types clash, the structures so far and the one below the next node have no bound. -/
theorem Chaining.not_bound {budget : Nat} {waiting : List UnifyTask}
    (hrun : Agenda.run unifyTurn budget s₁ [.pair a x] = .halted s₂ () waiting) {T : Shape}
    {y : NodeId} {κ : NodeId → NodeId} : ¬ s.shape.Bound s.hierarchy (insert x A) T y κ := by
  intro hκ
  obtain ⟨κ', hκ', -⟩ := h.meet.bound_pair (h.apart hx hapart).1 hapart (h.not_reach hx hapart) hκ
  rw [← h.hierarchy_eq, ← h.rep_eq hx hapart] at hκ'
  exact not_bound_of_halted h.sound h.unifying.graph (h.lt ha) (h.lt hx)
    (h.featuredPrototype? hproto) hrun hκ'

include hs

/-- One more unification. -/
theorem Chaining.step {budget : Nat}
    (hrun : Agenda.run unifyTurn budget s₁ [.pair a x] = .done s₂) :
    s.Chaining (insert x A) a s₂ := by
  have he := h.unifying.graph
  have ha₁ := h.lt ha
  have hx₁ := h.lt hx
  have hself := h.rep_eq hx hapart
  have hproto₁ := h.featuredPrototype? hproto
  have hsame := (h.apart hx hapart).1
  have hu := unifying_of_done h.sound he ha₁ hx₁ hrun
  have hrep := rep_rep_of_done h.sound he ha₁ hx₁ hrun
  -- what is below both operands was below the nodes so far, or the new one
  have hbelow : ∀ {n}, s₁.current.Below {s₁.graph.web.rep a, s₁.graph.web.rep x} n →
      s.shape.Below (insert x A) n := by
    rintro n ⟨c, rfl | rfl, hn⟩
    · exact Shape.below_insert_iff.2 (.inr (h.within hn))
    · rw [hself] at hn
      exact Shape.below_insert_iff.2 (.inl (hsame.reach_iff.1 hn))
  refine ⟨⟨hu.grammar, h.unifying.same.trans hu.same, hu.graph,
    h.unifying.extends_start.trans hu.extends_start, by simp⟩, ?_, fun hn => ?_,
    fun {y} hy hapart' => ?_⟩
  · have hmeet := meet_of_done h.sound he ha₁ hx₁ hproto₁ hrun
    rw [h.hierarchy_eq, hself] at hmeet
    exact h.meet.insert hs.grammar.lattice.hierarchy hsame hapart (h.not_reach hx hapart) hmeet
      (fun {n} _ => (hrep n).symm) fun _ => rfl
  · exact hbelow (below_of_reach_done h.sound he ha₁ hx₁ hproto₁ hrun hn).1
  · obtain ⟨hsame', hself'⟩ := h.apart hy (Shape.apartFrom_insert_iff.1 hapart').2
    obtain ⟨hsame'', hself''⟩ := same_of_done h.sound he ha₁ hx₁ hrun (h.lt hy)
      (hself' ReflTransGen.refl) fun _ hn hn' => hapart' (hsame'.reach_iff.1 hn) (hbelow hn')
    exact ⟨hsame'.trans hsame'' hsame'.reach_iff.2, fun hn => hself'' (hsame'.reach_iff.2 hn)⟩

end Step

/-- The chain ends with the meet of all structures, copied out. -/
theorem Chaining.answers (h : s.Chaining A a s₁) (hs : s.Sound) (ha : a < s.graph.size)
    (hproto : ∀ t, s.grammar.featuredPrototype? t = none) {xs : List NodeId}
    (hxs : ∀ x ∈ xs, x < s.graph.size) (hapart : ∀ x ∈ xs, s.shape.ApartFrom A x)
    (hpairs : xs.Pairwise s.Apart) :
    ∃ fuel answer, (∀ budget ≥ fuel, s₁.chained budget a xs = some answer) ∧
      Answers s.hierarchy s.shape (A ∪ {x | x ∈ xs}) answer := by
  induction xs generalizing A s₁ with
  | nil =>
    obtain ⟨answer, s', hextract, hcases⟩ := extract_whole h.unifying.graph (h.lt ha)
    refine ⟨0, (answer.toOption, s'), fun _ _ => ?_, ?_⟩
    · show some ((s₁.extract a unrestricted).1.toOption, (s₁.extract a unrestricted).2) = _
      rw [hextract]
    rw [union_nil]
    rcases hcases with ⟨k, rfl, hacyclic, hiso⟩ | ⟨e, rfl, hcycle⟩
    · obtain ⟨μ, hmeet⟩ := h.meet.of_isomorphic hs.grammar.lattice.hierarchy hiso
      exact .inl ⟨k, μ, rfl, hmeet, (hiso.symm.subsumes s.hierarchy).acyclic hacyclic⟩
    · obtain ⟨c, hc⟩ := h.meet.nonempty
      exact .inr ⟨rfl, fun hκ hT => hcycle ((h.meet.subsumes hc hκ).acyclic hT)⟩
  | cons x xs ih =>
    obtain ⟨hx, hxs⟩ := List.forall_mem_cons.1 hxs
    obtain ⟨hapartx, hapart⟩ := List.forall_mem_cons.1 hapart
    obtain ⟨hpair, hpairs⟩ := List.pairwise_cons.1 hpairs
    rw [union_cons]
    obtain ⟨fuel, hfuel⟩ := exists_fuel_unifyTurn h.sound h.unifying.graph
      (h.featuredPrototype? hproto) (h.lt ha) (h.lt hx)
    -- the first unification ends, and the chain goes on; or it fails, and nothing is below all
    rcases entangle_cases hfuel with ⟨s₂, hrun, hentangle⟩ | ⟨s₂, waiting, s', hrun, hentangle⟩
    · obtain ⟨fuel', answer, hchained, hanswers⟩ := ih (h.step hs ha hproto hx hapartx hrun) hxs
        (fun y hy => Shape.apartFrom_insert_iff.2 ⟨(hpair y hy).symm, hapart y hy⟩) hpairs
      refine ⟨max fuel fuel', answer, fun budget hbudget => ?_, hanswers⟩
      rw [← hchained budget (le_of_max_le_right hbudget), chained, entangleAll,
        hentangle budget (le_of_max_le_left hbudget)]
      rfl
    · refine ⟨fuel, (none, s'), fun budget hbudget => ?_, .inr ⟨rfl, fun hκ _ => ?_⟩⟩
      · rw [chained, entangleAll, hentangle budget hbudget]
        rfl
      · exact h.not_bound ha hproto hx hapartx hrun (hκ.mono Set.subset_union_left)

end Chain

/-! ## Step by step -/

section Steps

variable {s s₁ s₂ : Session} {A : Set NodeId} {k : Nat}

/-- A unification answers with the meet of its operands. -/
theorem answers_unifyInto (hs : s.Sound) (hr : s.AtRest)
    (hproto : ∀ t, s.grammar.featuredPrototype? t = none) {a b : Nat} (ha : a < s.graph.size)
    (hb : b < s.graph.size) {budget : Nat} {answer : Option NodeId × Session}
    (h : s.unifyInto budget a b unrestricted = some answer) :
    Answers s.hierarchy s.shape {a, b} answer := by
  obtain ⟨answer, s'⟩ := answer
  have he := Graph.entangled_of_atRest hs.graph hr
  have hview : s.graph.web.view = s.shape := hr.view_eq
  obtain ⟨-, -, -, hended⟩ := ended_unifyInto hs he ha hb h
  have hmeet : ∀ {t}, Agenda.run unifyTurn budget s [.pair a b] = .done t →
      s.shape.Meet s.hierarchy {a, b} t.current (t.graph.web.rep a) t.graph.web.rep := by
    intro t hrun
    have hmeet := meet_of_done hs he ha hb hproto hrun
    rwa [hview, hr.web_rep, hr.web_rep] at hmeet
  cases hended with
  | result hrun hk hcopy hnew =>
    obtain ⟨hacyclic, hiso⟩ := hcopy rfl
    obtain ⟨μ, hmeet⟩ := (hmeet hrun).of_isomorphic hs.grammar.lattice.hierarchy hiso
    exact .inl ⟨_, μ, rfl, hmeet, (hiso.symm.subsumes s.hierarchy).acyclic hacyclic⟩
  | cyclic hrun hcycle =>
    exact .inr ⟨rfl, fun hκ hT =>
      hcycle (((hmeet hrun).subsumes (Set.mem_insert ..) hκ).acyclic hT)⟩
  | clash hrun =>
    refine .inr ⟨rfl, fun {T y κ} hκ _ => ?_⟩
    rw [← hview, ← hr.web_rep a, ← hr.web_rep b] at hκ
    exact not_bound_of_halted hs he ha hb hproto hrun hκ

/-- How far unifications one by one have come: the structure below `k` is the meet of those below
the nodes of `A`, made of their nodes or of new ones. -/
structure Stepping (s : Session) (A : Set NodeId) (s₁ : Session) (k : Nat) : Prop where
  sound : s₁.Sound
  rest : s₁.AtRest
  later : s.Later s₁
  lt : k < s₁.graph.size
  meet : ∃ μ, s.shape.Meet s.hierarchy A s₁.shape k μ
  within : ∀ {n : Nat}, s₁.shape.Reach k n → s.shape.Below A n ∨ s.graph.size ≤ n

theorem stepping_start (hs : s.Sound) (hr : s.AtRest) (hk : k < s.graph.size) :
    s.Stepping {k} s k :=
  ⟨hs, hr, ⟨.refl _, .refl _⟩, hk, ⟨id, Shape.meet_self ..⟩,
    fun hn => .inl (Shape.below_singleton_iff.2 hn)⟩

theorem Later.same (h : s.Later s₁) (hs : s.Sound) {x : Nat} (hx : x < s.graph.size) :
    s.shape.Same x s₁.shape := fun _ hn =>
  have hlt := hs.graph.reach_lt hx hn
  ⟨h.graph.type_eq hlt, funext (h.graph.value_eq hlt)⟩

section Step

variable (h : s.Stepping A s₁ k) (hs : s.Sound)
  (hproto : ∀ t, s.grammar.featuredPrototype? t = none) {x : Nat} (hx : x < s.graph.size)
  (hapart : s.shape.ApartFrom A x)
include h

theorem Stepping.entangled : s₁.graph.Entangled := Graph.entangled_of_atRest h.sound.graph h.rest

theorem Stepping.lt_size {n : Nat} (hn : n < s.graph.size) : n < s₁.graph.size :=
  Nat.lt_of_lt_of_le hn h.later.graph.size_le

theorem Stepping.featuredPrototype? (hproto : ∀ t, s.grammar.featuredPrototype? t = none)
    (t : TypeId) : s₁.grammar.featuredPrototype? t = none :=
  (h.later.grammar.featuredPrototype? t).trans (hproto t)

include hproto hx

/-- What comes of the next unification. -/
theorem Stepping.answers_pair {budget : Nat} {answer : Option NodeId × Session}
    (hunify : s₁.unifyInto budget k x unrestricted = some answer) :
    Answers s.hierarchy s₁.shape {k, x} answer := by
  have hhierarchy : s₁.hierarchy = s.hierarchy := h.later.grammar.hierarchy_eq
  rw [← hhierarchy]
  exact answers_unifyInto h.sound h.rest (h.featuredPrototype? hproto) h.lt (h.lt_size hx) hunify

omit hproto
include hs hapart

/-- The result so far and what is below the next node have no node in common. -/
theorem Stepping.not_reach {n : NodeId} (hn : s₁.shape.Reach k n) : ¬ s₁.shape.Reach x n := by
  intro hn'
  have hbelow := (h.later.same hs hx).reach_iff.1 hn'
  rcases h.within hn with hn | hge
  · exact hapart hbelow hn
  · exact Nat.not_lt.2 hge (hs.graph.reach_lt hx hbelow)

include hproto

/-- One more unification, with the result copied out. -/
theorem Stepping.step {budget : Nat} {r : NodeId}
    (hunify : s₁.unifyInto budget k x unrestricted = some (some r, s₂)) :
    s.Stepping (insert x A) s₂ r ∧ s₂.shape.Acyclic r := by
  classical
  obtain ⟨hsound, hrest, hlater, hended⟩ :=
    ended_unifyInto h.sound h.entangled h.lt (h.lt_size hx) hunify
  obtain ⟨μ, hmeet⟩ := h.meet
  rcases h.answers_pair hproto hx hunify with ⟨_, ν, heq, hpair, hacyclic⟩ | ⟨hnone, -⟩
  · cases heq
    cases hended with
    | result hrun hk hcopy hnew =>
      refine ⟨⟨hsound, hrest, h.later.trans hlater, hk, ⟨fun n => if s.shape.Below A n then ν (μ n)
        else ν n, ?_⟩, fun hn => .inr (Nat.le_trans h.later.graph.size_le (hnew hn))⟩, hacyclic⟩
      exact hmeet.insert hs.grammar.lattice.hierarchy (h.later.same hs hx) hapart
        (h.not_reach hs hx hapart) hpair (fun hn => if_pos hn) fun hn => if_neg (hapart hn)
  · cases hnone

/-- Where there is no result, the structures so far and the one below the next node have no bound
without cycles. -/
theorem Stepping.not_bound {budget : Nat}
    (hunify : s₁.unifyInto budget k x unrestricted = some (none, s₂)) {T : Shape} {y : NodeId}
    {κ : NodeId → NodeId} (hκ : s.shape.Bound s.hierarchy (insert x A) T y κ) : ¬ T.Acyclic y := by
  obtain ⟨μ, hmeet⟩ := h.meet
  obtain ⟨κ', hκ', -⟩ :=
    hmeet.bound_pair (h.later.same hs hx) hapart (h.not_reach hs hx hapart) hκ
  rcases h.answers_pair hproto hx hunify with ⟨_, -, heq, -⟩ | ⟨-, hbound⟩
  · cases heq
  · exact hbound hκ'

end Step

/-- The last result is the meet of all structures. -/
theorem Stepping.answers (h : s.Stepping A s₁ k) (hs : s.Sound)
    (hproto : ∀ t, s.grammar.featuredPrototype? t = none) {xs : List NodeId}
    (hacyclic : xs = [] → s₁.shape.Acyclic k) (hxs : ∀ x ∈ xs, x < s.graph.size)
    (hapart : ∀ x ∈ xs, s.shape.ApartFrom A x) (hpairs : xs.Pairwise s.Apart) :
    ∃ fuel answer, (∀ budget ≥ fuel, s₁.stepwise budget k xs = some answer) ∧
      Answers s.hierarchy s.shape (A ∪ {x | x ∈ xs}) answer := by
  induction xs generalizing A s₁ k with
  | nil =>
    obtain ⟨μ, hmeet⟩ := h.meet
    rw [union_nil]
    exact ⟨0, (some k, s₁), fun _ _ => rfl, .inl ⟨k, μ, rfl, hmeet, hacyclic rfl⟩⟩
  | cons x xs ih =>
    obtain ⟨hx, hxs⟩ := List.forall_mem_cons.1 hxs
    obtain ⟨hapartx, hapart⟩ := List.forall_mem_cons.1 hapart
    obtain ⟨hpair, hpairs⟩ := List.pairwise_cons.1 hpairs
    rw [union_cons]
    obtain ⟨fuel, hfuel⟩ := exists_fuel_unifyTurn h.sound h.entangled
      (h.featuredPrototype? hproto) h.lt (h.lt_size hx)
    obtain ⟨answer, s₂, hunify⟩ := unifyInto_of_ne_spent hfuel unrestricted
    -- the first result goes on into the rest; without one, nothing is below all structures
    cases answer with
    | some r =>
      obtain ⟨hstep, hacyclic⟩ := h.step hs hproto hx hapartx (hunify fuel (Nat.le_refl _))
      obtain ⟨fuel', answer, hstepwise, hanswers⟩ := ih hstep (fun _ => hacyclic) hxs
        (fun y hy => Shape.apartFrom_insert_iff.2 ⟨(hpair y hy).symm, hapart y hy⟩) hpairs
      refine ⟨max fuel fuel', answer, fun budget hbudget => ?_, hanswers⟩
      rw [← hstepwise budget (le_of_max_le_right hbudget), stepwise,
        hunify budget (le_of_max_le_left hbudget)]
    | none =>
      refine ⟨fuel, (none, s₂), fun budget hbudget => ?_, .inr ⟨rfl, fun hκ => ?_⟩⟩
      · rw [stepwise, hunify budget hbudget]
      · exact h.not_bound hs hproto hx hapartx (hunify fuel (Nat.le_refl _))
          (hκ.mono Set.subset_union_left)

end Steps

/-! ## Both ways agree, in any order -/

section Agree

variable {s : Session} (hs : s.Sound) (hr : s.AtRest)
  (hproto : ∀ t, s.grammar.featuredPrototype? t = none)
include hs hr hproto

/-- Both ways answer with the meet of all structures. -/
theorem exists_answers {t x : NodeId} {xs : List NodeId}
    (hlt : ∀ n ∈ t :: x :: xs, n < s.graph.size) (hapart : (t :: x :: xs).Pairwise s.Apart) :
    ∃ fuel first second, (∀ budget ≥ fuel, s.chained budget t (x :: xs) = some first ∧
        s.stepwise budget t (x :: xs) = some second) ∧
      Answers s.hierarchy s.shape {n | n ∈ t :: x :: xs} first ∧
      Answers s.hierarchy s.shape {n | n ∈ t :: x :: xs} second := by
  obtain ⟨ht, hxs⟩ := List.forall_mem_cons.1 hlt
  obtain ⟨hpair, hpairs⟩ := List.pairwise_cons.1 hapart
  have hapart : ∀ y ∈ x :: xs, s.shape.ApartFrom {t} y :=
    fun y hy => Shape.apartFrom_singleton_iff.2 (hpair y hy).symm
  have hall : {n | n ∈ t :: x :: xs} = ({t} : Set NodeId) ∪ {n | n ∈ x :: xs} := by
    ext n
    simp
  obtain ⟨fuel, first, hchained, hfirst⟩ :=
    (chaining_start hs hr t).answers hs ht hproto hxs hapart hpairs
  obtain ⟨fuel', second, hstepwise, hsecond⟩ :=
    (stepping_start hs hr ht).answers hs hproto
      (fun hnil => absurd hnil (List.cons_ne_nil x xs)) hxs hapart hpairs
  rw [hall]
  exact ⟨max fuel fuel', first, second, fun budget hbudget =>
    ⟨hchained budget (le_of_max_le_left hbudget), hstepwise budget (le_of_max_le_right hbudget)⟩,
    hfirst, hsecond⟩

/-- Where no prototype has features and no two of the structures have a node in common, they can be
unified in one episode or step by step, with copies in between: both come to an end, with isomorphic
results or both with none, and so they do with these answers for every order of the nodes. -/
theorem chained_alike_stepwise {t x : NodeId} {xs : List NodeId}
    (hlt : ∀ n ∈ t :: x :: xs, n < s.graph.size) (hapart : (t :: x :: xs).Pairwise s.Apart) :
    ∃ fuel first second, (∀ budget ≥ fuel, s.chained budget t (x :: xs) = some first ∧
        s.stepwise budget t (x :: xs) = some second) ∧ Alike first second ∧
      ∀ {t' xs'}, (t' :: xs').Perm (t :: x :: xs) → ∃ fuel' first' second',
        (∀ budget ≥ fuel', s.chained budget t' xs' = some first' ∧
          s.stepwise budget t' xs' = some second') ∧
        Alike first first' ∧ Alike second second' := by
  have horder := hs.grammar.lattice.hierarchy
  obtain ⟨fuel, first, second, hrun, hfirst, hsecond⟩ := exists_answers hs hr hproto hlt hapart
  refine ⟨fuel, first, second, hrun, hfirst.alike horder hsecond, fun {t' xs'} hperm => ?_⟩
  cases xs' with
  | nil => cases hperm.length_eq
  | cons x' xs' =>
    obtain ⟨fuel', first', second', hrun', hfirst', hsecond'⟩ := exists_answers hs hr hproto
      (fun n hn => hlt n (hperm.subset hn)) (hperm.symm.pairwise hapart Apart.symm)
    have hall : {n | n ∈ t' :: x' :: xs'} = {n | n ∈ t :: x :: xs} :=
      Set.ext fun n => hperm.mem_iff
    rw [hall] at hfirst' hsecond'
    exact ⟨fuel', first', second', hrun', hfirst.alike horder hfirst',
      hsecond.alike horder hsecond'⟩

end Agree

theorem pairwise_apart : [0, 2, 4].Pairwise apart.Apart := by
  have h₁ : apart.Apart 0 2 := apart_of_disjoint [0, 1] [2, 3] (by decide) (by decide) (by decide)
    (by decide) (by decide)
  have h₂ : apart.Apart 0 4 := apart_of_disjoint [0, 1] [4] (by decide) (by decide) (by decide)
    (by decide) (by decide)
  have h₃ : apart.Apart 2 4 := apart_of_disjoint [2, 3] [4] (by decide) (by decide) (by decide)
    (by decide) (by decide)
  simp [h₁, h₂, h₃]

/-- Three structures with two coreferences that unify, in two of their orders. -/
theorem chained_alike_stepwise_apart : ∃ fuel first second, (∀ budget ≥ fuel,
      apart.chained budget 0 [2, 4] = some first ∧ apart.stepwise budget 0 [2, 4] = some second) ∧
    first.1.isSome ∧ Alike first second ∧ ∃ fuel' first' second', (∀ budget ≥ fuel',
      apart.chained budget 4 [0, 2] = some first' ∧ apart.stepwise budget 4 [0, 2] = some second') ∧
    Alike first first' ∧ Alike second second' := by
  obtain ⟨fuel, first, second, hrun, halike, hperm⟩ := chained_alike_stepwise sound_apart.1
    sound_apart.2 (fun _ => rfl) (by decide) pairwise_apart
  have hanswer : (apart.chained 20 0 [2, 4]).map (fun p => p.1.isSome) = some true := by
    decide +kernel
  obtain ⟨answer, h, hsome⟩ := Option.map_eq_some_iff.1 hanswer
  have heq := (hrun (max fuel 20) (le_max_left ..)).1.symm.trans
    (chained_of_le (le_max_right ..) h)
  cases heq
  exact ⟨fuel, first, second, hrun, hsome, halike, hperm (by decide)⟩

end FeatureLogic.Session
