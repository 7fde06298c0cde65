import FeatureLogic.Proofs.Sample
import FeatureLogic.Proofs.Session.Subsumption
import FeatureLogic.Proofs.Unify.Outcome

/-!
Laws of unification: a result loses nothing of its operands, it is the greatest lower bound of them
where no prototype has features, and it does not depend on their order where prototypes are
inherited and met.
-/

open Relation

namespace FeatureLogic

namespace Session

/-! ## Lower bounds -/

section LowerBound

variable {s : Session} (hs : s.Sound) (hr : s.AtRest) {a b : Nat} (ha : a < s.graph.size)
  (hb : b < s.graph.size)
include hs hr ha hb

/-- Where nothing has come about before, the structures of both operands map to that of their one
class. -/
theorem maps_of_done_atRest {budget : Nat} {s₁ : Session}
    (hrun : Agenda.run unifyTurn budget s [.pair a b] = .done s₁) :
    s.shape.Maps s.hierarchy a s₁.graph.web.view s₁.graph.web.rep ∧
      s.shape.Maps s.hierarchy b s₁.graph.web.view s₁.graph.web.rep ∧
      s₁.graph.web.rep a = s₁.graph.web.rep b := by
  have he := Graph.entangled_of_atRest hs.graph hr
  have hview : s.graph.web.view = s.shape := hr.view_eq
  have hleft := maps_of_done hs he ha hb hrun ha
  have hright := maps_of_done hs he ha hb hrun hb
  rw [hview, hr.web_rep] at hleft hright
  exact ⟨hleft, hright, rep_of_done hs he ha hb hrun⟩

/-- What the classes are copied to is subsumed by both operands. -/
theorem subsumes_of_isomorphic {budget r : Nat} {s₁ s' : Session} (hsound : s'.Sound)
    (hlater : s.Later s') (hr' : r < s'.graph.size)
    (hrun : Agenda.run unifyTurn budget s [.pair a b] = .done s₁)
    (hiso : s₁.graph.web.view.Isomorphic (s₁.graph.web.rep a) s'.shape r)
    {s'' : Session} (hs'' : s''.Sound) (hr'' : s''.AtRest) (hlater' : s'.Later s'') :
    (s''.subsumes a r).1 = true ∧ (s''.subsumes b r).1 = true := by
  obtain ⟨hleft, hright, heq⟩ := maps_of_done_atRest hs hr ha hb hrun
  have horder := hs.grammar.lattice.hierarchy
  have hcopied : s₁.graph.web.view.Subsumes s.hierarchy (s₁.graph.web.rep a) s''.shape r :=
    (hiso.trans (hlater'.graph.isomorphic hsound.graph hr')).subsumes _
  have hr' := Nat.lt_of_lt_of_le hr' hlater'.graph.size_le
  have hall := hlater.trans hlater'
  rw [subsumes_iff_of_later hs hall hs'' hr'' ha hr', subsumes_iff_of_later hs hall hs'' hr'' hb hr']
  exact ⟨Shape.Subsumes.trans horder ⟨_, rfl, hleft⟩ hcopied,
    Shape.Subsumes.trans horder ⟨_, heq.symm, hright⟩ hcopied⟩

/-- The result of a unification, whatever the prototypes, is subsumed by both operands. -/
theorem subsumes_unifyInto {budget r : Nat} {s' : Session}
    (h : s.unifyInto budget a b unrestricted = some (some r, s')) :
    s'.Sound ∧ s'.AtRest ∧ s.Later s' ∧ r < s'.graph.size ∧
      ∀ s'' : Session, s''.Sound → s''.AtRest → s'.Later s'' →
        (s''.subsumes a r).1 = true ∧ (s''.subsumes b r).1 = true := by
  obtain ⟨hsound, hrest, hlater, hended⟩ :=
    ended_unifyInto hs (Graph.entangled_of_atRest hs.graph hr) ha hb h
  cases hended with
  | @result s₁ _ _ hrun hk hcopy =>
    exact ⟨hsound, hrest, hlater, hk, fun s'' hs'' hr'' hlater' =>
      subsumes_of_isomorphic hs hr ha hb hsound hlater hk hrun (hcopy rfl).2 hs'' hr'' hlater'⟩

end LowerBound

/-- The operands share a node, and the type that they get has a prototype with features. -/
def completing : Session :=
  Sample.session (Sample.grammar [(.of 3, [⟨0, 1⟩]), (.of 2, [])] [(.of 3, 0)])
    [(.of 1, [⟨0, 1⟩, ⟨1, 1⟩]), (.top, []), (.of 2, [⟨0, 1⟩])]

theorem sound_completing : completing.Sound ∧ completing.AtRest :=
  Sample.sound_session (Sample.sound_grammar (by decide) (by decide) (by decide))
    (by decide)

theorem subsumes_unifyInto_completing :
    ∃ r s', completing.unifyInto 20 0 2 unrestricted = some (some r, s') ∧
      s'.Sound ∧ s'.AtRest ∧ completing.Later s' ∧ r < s'.graph.size ∧
      ∀ s'' : Session, s''.Sound → s''.AtRest → s'.Later s'' →
        (s''.subsumes 0 r).1 = true ∧ (s''.subsumes 2 r).1 = true := by
  have hanswer : (completing.unifyInto 20 0 2 unrestricted).map Prod.fst = some (some 4) := by
    decide +kernel
  obtain ⟨⟨answer, s'⟩, h, hr⟩ := Option.map_eq_some_iff.1 hanswer
  cases hr
  exact ⟨4, s', h, subsumes_unifyInto sound_completing.1 sound_completing.2 (by decide)
    (by decide) h⟩

/-! ## Greatest lower bounds -/

section GreatestLowerBound

variable {s : Session} (hs : s.Sound) (hr : s.AtRest) {a b : Nat} (ha : a < s.graph.size)
  (hb : b < s.graph.size)
include hs hr ha hb

/-- Where no prototype has features, unification comes to an end, and then it gives the greatest
lower bound of operands that have no node in common: its result is subsumed by both and subsumes
whatever else both subsume; without a result, they subsume no structure in common that has no cycle
and no impossible type. -/
theorem unifyInto_greatest (hproto : ∀ t, s.grammar.featuredPrototype? t = none)
    (hapart : ∀ n, s.shape.Reach a n → ¬ s.shape.Reach b n) :
    ∃ fuel answer s', (∀ budget ≥ fuel, s.unifyInto budget a b unrestricted = some (answer, s')) ∧
      s'.Sound ∧ s'.AtRest ∧ s.Later s' ∧
      ∀ s'' : Session, s''.Sound → s''.AtRest → s'.Later s'' →
        (∀ r, answer = some r → (s''.subsumes a r).1 = true ∧ (s''.subsumes b r).1 = true ∧
          ∀ c < s''.graph.size, (s''.subsumes a c).1 = true → (s''.subsumes b c).1 = true →
            (s''.subsumes r c).1 = true) ∧
        (answer = none → ∀ c < s''.graph.size, s''.shape.Acyclic c →
          (∀ n, s''.shape.Reach c n → s''.graph.type n ≠ .bottom) →
          ¬ ((s''.subsumes a c).1 = true ∧ (s''.subsumes b c).1 = true)) := by
  have he := Graph.entangled_of_atRest hs.graph hr
  have hview : s.graph.web.view = s.shape := hr.view_eq
  obtain ⟨fuel, hfuel⟩ := exists_fuel_unifyTurn hs he hproto ha hb
  obtain ⟨answer, s', hall⟩ := unifyInto_of_ne_spent hfuel unrestricted
  obtain ⟨hsound, hrest, hlater, hended⟩ := ended_unifyInto hs he ha hb (hall fuel (Nat.le_refl _))
  refine ⟨fuel, answer, s', hall, hsound, hrest, hlater, fun s'' hs'' hr'' hlater' => ?_⟩
  have hfar := hlater.trans hlater'
  -- a structure that both subsume, and one map of both operands to it
  have hmaps : ∀ {c : Nat}, c < s''.graph.size → (s''.subsumes a c).1 = true →
      (s''.subsumes b c).1 = true → s''.shape.Completed s.grammar c ∧
        ∃ μ, s.graph.web.view.Maps s.hierarchy (s.graph.web.rep a) s''.shape μ ∧
          s.graph.web.view.Maps s.hierarchy (s.graph.web.rep b) s''.shape μ ∧
          μ (s.graph.web.rep a) = c ∧ μ (s.graph.web.rep a) = μ (s.graph.web.rep b) := by
    intro c hc hleft hright
    rw [subsumes_iff_of_later hs hfar hs'' hr'' ha hc] at hleft
    rw [subsumes_iff_of_later hs hfar hs'' hr'' hb hc] at hright
    rw [hview, hr.web_rep, hr.web_rep]
    refine ⟨fun n f m t root _ _ _ hroot => ?_, Shape.exists_maps_of_apart hapart hleft hright⟩
    rw [hproto] at hroot
    cases hroot
  -- a result is a copy of the classes, which map to all that both map to
  refine ⟨?_, ?_⟩
  · rintro r rfl
    cases hended with
    | result hrun hk hcopy =>
      have hlower := subsumes_of_isomorphic hs hr ha hb hsound hlater hk hrun (hcopy rfl).2 hs''
        hr'' hlater'
      refine ⟨hlower.1, hlower.2, fun c hc hleft hright => ?_⟩
      obtain ⟨hcompleted, μ, hμ, hμ', hroot, heq⟩ := hmaps hc hleft hright
      rw [subsumes_iff_of_later hsound hlater' hs'' hr'' hk hc]
      have hsub := subsumes_of_done hs he ha hb hcompleted hμ hμ' hroot heq hrun
      have horder : s'.hierarchy = s.hierarchy := hlater.grammar.hierarchy_eq
      rw [horder]
      exact ((hcopy rfl).2.symm.subsumes _).trans hs.grammar.lattice.hierarchy hsub
  · rintro rfl c hc hacyclic htype ⟨hleft, hright⟩
    obtain ⟨hcompleted, μ, hμ, hμ', hroot, heq⟩ := hmaps hc hleft hright
    cases hended with
    | cyclic hrun hcycle =>
      exact hcycle ((subsumes_of_done hs he ha hb hcompleted hμ hμ' hroot heq hrun).acyclic
        hacyclic)
    | clash hrun =>
      exact run_ne_halted hs he ha hb hcompleted hμ hμ' hroot heq (fun hn => htype _ hn) () _ hrun

end GreatestLowerBound

/-- Operands with a coreference each, apart from each other, and a node of the type `bottom`. -/
def apart : Session :=
  Sample.session (Sample.grammar [] [])
    [(.of 1, [⟨0, 1⟩, ⟨1, 1⟩]), (.top, []), (.of 2, [⟨0, 3⟩, ⟨1, 3⟩]), (.of 4, []), (.of 1, []),
      (.of 5, []), (.bottom, [])]

theorem sound_apart : apart.Sound ∧ apart.AtRest :=
  Sample.sound_session (Sample.sound_grammar (by decide) (by decide) (by decide))
    (by decide)

/-- What is below two nodes of the session, with no node in common. -/
theorem apart_of_disjoint {x y : NodeId} (below below' : List NodeId) (hx : x ∈ below)
    (hy : y ∈ below') (h : ∀ n ∈ below, ∀ e ∈ apart.graph.edges n, e.target ∈ below)
    (h' : ∀ n ∈ below', ∀ e ∈ apart.graph.edges n, e.target ∈ below')
    (hdisjoint : ∀ n ∈ below, n ∉ below') (n : NodeId) (hn : apart.shape.Reach x n) :
    ¬ apart.shape.Reach y n :=
  sound_apart.1.graph.apart_of_disjoint below hx h hy h' hdisjoint n hn

theorem unifyInto_greatest_apart :
    ∃ fuel answer s', (∀ budget ≥ fuel, apart.unifyInto budget 0 2 unrestricted = some (answer, s')) ∧
      s'.Sound ∧ s'.AtRest ∧ apart.Later s' ∧
      ∀ s'' : Session, s''.Sound → s''.AtRest → s'.Later s'' →
        (∀ r, answer = some r → (s''.subsumes 0 r).1 = true ∧ (s''.subsumes 2 r).1 = true ∧
          ∀ c < s''.graph.size, (s''.subsumes 0 c).1 = true → (s''.subsumes 2 c).1 = true →
            (s''.subsumes r c).1 = true) ∧
        (answer = none → ∀ c < s''.graph.size, s''.shape.Acyclic c →
          (∀ n, s''.shape.Reach c n → s''.graph.type n ≠ .bottom) →
          ¬ ((s''.subsumes 0 c).1 = true ∧ (s''.subsumes 2 c).1 = true)) :=
  unifyInto_greatest sound_apart.1 sound_apart.2 (by decide) (by decide) (fun _ => rfl)
    (apart_of_disjoint [0, 1] [2, 3] (by decide) (by decide) (by decide) (by decide) (by decide))

/-- A structure of the type `bottom` is subsumed by operands that have no result. -/
theorem not_greatest_of_bottom : ∃ s', apart.Sound ∧ apart.AtRest ∧
    (∀ t, apart.grammar.featuredPrototype? t = none) ∧
    (∀ n, apart.shape.Reach 4 n → ¬ apart.shape.Reach 5 n) ∧
    (∀ n, apart.shape.Reach 4 n ∨ apart.shape.Reach 5 n → apart.graph.type n ≠ .bottom) ∧
    apart.unifyInto 20 4 5 unrestricted = some (none, s') ∧ s'.shape.Acyclic 6 ∧
    (s'.subsumes 4 6).1 = true ∧ (s'.subsumes 5 6).1 = true := by
  have hanswer : ((apart.unifyInto 20 4 5 unrestricted).map fun p =>
      (p.1, (p.2.subsumes 4 6).1, (p.2.subsumes 5 6).1, p.2.graph.edges 6)) =
        some (none, true, true, []) := by
    decide +kernel
  obtain ⟨⟨answer, s'⟩, h, hr⟩ := Option.map_eq_some_iff.1 hanswer
  simp only [Prod.mk.injEq] at hr
  obtain ⟨rfl, hleft, hright, hedges⟩ := hr
  have hleaf : ∀ x, apart.graph.edges x = [] → ∀ f, apart.shape.value? x f = none := by
    intro x hx f
    show Edges.target? f (apart.graph.edges x) = none
    rw [hx, Edges.target?_nil]
  have hleaf₄ := hleaf 4 (by decide)
  have hleaf₅ := hleaf 5 (by decide)
  refine ⟨s', sound_apart.1, sound_apart.2, fun _ => rfl, apart_of_disjoint [4] [5] (by decide)
    (by decide) (by decide) (by decide) (by decide), fun n hn => ?_, h,
    Shape.acyclic_of_leaf fun f => ?_, hleft, hright⟩
  · rcases hn with hn | hn
    · rw [hn.eq_of_leaf hleaf₄]
      decide
    · rw [hn.eq_of_leaf hleaf₅]
      decide
  · show Edges.target? f (s'.graph.edges 6) = none
    rw [hedges, Edges.target?_nil]

/-! ## The order of the operands -/

/-- The answers of two unifications, each with the session afterwards, are isomorphic results, or
both have none. -/
def Alike (first second : Option NodeId × Session) : Prop :=
  (first.1 = none ∧ second.1 = none) ∨ ∃ r q, first.1 = some r ∧ second.1 = some q ∧
    first.2.shape.Isomorphic r second.2.shape q

/-- All nodes below `a` are wellformed and of possible types. -/
def Proper (s : Session) (a : NodeId) : Prop :=
  ∀ n, s.shape.Reach a n → s.shape.Wellformed s.grammar n ∧ s.graph.type n ≠ .bottom

section Order

variable {s s₁ s₂ : Session} (hs : s.Sound) (hr : s.AtRest) (hg : s.grammar.Coherent) {a b : Nat}
  (ha : a < s.graph.size) (hb : b < s.graph.size) (hleft : s.Proper a) (hright : s.Proper b)
  {budget₁ budget₂ : Nat}
include hs hr hg ha hb hleft hright

/-- The classes at the end meet the prototypes of all more general types. -/
theorem completed_of_done (hrun : Agenda.run unifyTurn budget₁ s [.pair a b] = .done s₁) :
    s₁.graph.web.view.Completed s.grammar (s₁.graph.web.rep a) ∧
      ∀ {n}, s₁.graph.web.view.Reach (s₁.graph.web.rep a) n →
        s₁.graph.web.view.type n ≠ .bottom := by
  have he := Graph.entangled_of_atRest hs.graph hr
  have hview : s.graph.web.view = s.shape := hr.view_eq
  have hbelow : ∀ {x}, s.Proper x → ∀ {n}, s.graph.web.view.Reach (s.graph.web.rep x) n →
      s.graph.web.view.Wellformed s.grammar n ∧ s.graph.web.view.type n ≠ .bottom := by
    intro x hx n
    rw [hview, hr.web_rep]
    exact hx n
  have hpossible : ∀ {n}, s₁.graph.web.view.Reach (s₁.graph.web.rep a) n →
      s₁.graph.web.view.type n ≠ .bottom :=
    fun hn => possible_of_done hs he ha hb (fun hn => (hbelow hleft hn).2)
      (fun hn => (hbelow hright hn).2) hrun hn
  refine ⟨Web.completed_of_wellformed hs.grammar hg.inherits (fun hn => ?_) hpossible, hpossible⟩
  exact wellformed_of_done hs he ha hb hg.wellformed (fun hn => (hbelow hleft hn).1)
    (fun hn => (hbelow hright hn).1) hrun hn

omit hg hleft hright in
/-- Both operands map to what comes about in the other order. -/
theorem maps_of_done_swapped (hrun : Agenda.run unifyTurn budget₂ s [.pair b a] = .done s₂) :
    s.graph.web.view.Maps s.hierarchy (s.graph.web.rep a) s₂.graph.web.view s₂.graph.web.rep ∧
      s.graph.web.view.Maps s.hierarchy (s.graph.web.rep b) s₂.graph.web.view s₂.graph.web.rep ∧
      s₂.graph.web.rep (s.graph.web.rep a) = s₂.graph.web.rep b ∧
      s₂.graph.web.rep (s.graph.web.rep a) = s₂.graph.web.rep (s.graph.web.rep b) := by
  have he := Graph.entangled_of_atRest hs.graph hr
  have heq := rep_of_done hs he hb ha hrun
  have hself := rep_rep_of_done hs he hb ha hrun
  refine ⟨maps_of_done hs he hb ha hrun ha, maps_of_done hs he hb ha hrun hb,
    (hself a).trans heq.symm, ?_⟩
  rw [hself, hself, heq]

/-- What comes about in one order can be mapped to what comes about in the other. -/
theorem subsumes_of_done_swapped
    (hrun₁ : Agenda.run unifyTurn budget₁ s [.pair a b] = .done s₁)
    (hrun₂ : Agenda.run unifyTurn budget₂ s [.pair b a] = .done s₂) :
    s₁.graph.web.view.Subsumes s.hierarchy (s₁.graph.web.rep a) s₂.graph.web.view
      (s₂.graph.web.rep b) := by
  obtain ⟨hμ, hμ', hroot, heq⟩ := maps_of_done_swapped hs hr ha hb hrun₂
  have hcompleted := (completed_of_done hs hr hg hb ha hright hleft hrun₂).1
  exact subsumes_of_done hs (Graph.entangled_of_atRest hs.graph hr) ha hb hcompleted hμ hμ' hroot
    heq hrun₁

/-- If one order comes to its end without a clash, the other one has none. -/
theorem run_ne_halted_of_done (hrun : Agenda.run unifyTurn budget₂ s [.pair b a] = .done s₂)
    (waiting : List UnifyTask) :
    Agenda.run unifyTurn budget₁ s [.pair a b] ≠ .halted s₁ () waiting := by
  obtain ⟨hμ, hμ', hroot, heq⟩ := maps_of_done_swapped hs hr ha hb hrun
  obtain ⟨hcompleted, hpossible⟩ := completed_of_done hs hr hg hb ha hright hleft hrun
  exact run_ne_halted hs (Graph.entangled_of_atRest hs.graph hr) ha hb hcompleted hμ hμ' hroot heq
    hpossible () waiting

/-- Where prototypes are inherited and met, unification does not depend on the order of its
operands: it has no result in either order, or the two results are isomorphic. -/
theorem unifyInto_comm {first second : Option NodeId × Session}
    (h₁ : s.unifyInto budget₁ a b unrestricted = some first)
    (h₂ : s.unifyInto budget₂ b a unrestricted = some second) : Alike first second := by
  obtain ⟨x, s₁⟩ := first
  obtain ⟨y, s₂⟩ := second
  have he := Graph.entangled_of_atRest hs.graph hr
  obtain ⟨-, -, -, hended₁⟩ := ended_unifyInto hs he ha hb h₁
  obtain ⟨-, -, -, hended₂⟩ := ended_unifyInto hs he hb ha h₂
  have hiso : ∀ {t₁ t₂ : Session}, Agenda.run unifyTurn budget₁ s [.pair a b] = .done t₁ →
      Agenda.run unifyTurn budget₂ s [.pair b a] = .done t₂ →
      t₁.graph.web.view.Isomorphic (t₁.graph.web.rep a) t₂.graph.web.view (t₂.graph.web.rep b) :=
    fun hrun₁ hrun₂ => Shape.isomorphic_of_subsumes hs.grammar.lattice.hierarchy
      (subsumes_of_done_swapped hs hr hg ha hb hleft hright hrun₁ hrun₂)
      (subsumes_of_done_swapped hs hr hg hb ha hright hleft hrun₂ hrun₁)
  -- both orders end alike: with copies of isomorphic classes, in a cycle, or in a clash
  cases hended₁ with
  | result hrun₁ hk₁ hcopy₁ =>
    cases hended₂ with
    | result hrun₂ hk₂ hcopy₂ =>
      exact .inr ⟨_, _, rfl, rfl,
        ((hcopy₁ rfl).2.symm.trans (hiso hrun₁ hrun₂)).trans (hcopy₂ rfl).2⟩
    | cyclic hrun₂ hcycle =>
      have hsub := (hiso hrun₁ hrun₂).symm.subsumes s.hierarchy
      exact absurd (hsub.acyclic (hcopy₁ rfl).1) hcycle
    | clash hrun₂ =>
      exact absurd hrun₂ (run_ne_halted_of_done hs hr hg hb ha hright hleft hrun₁ _)
  | cyclic hrun₁ hcycle =>
    cases hended₂ with
    | result hrun₂ hk₂ hcopy₂ =>
      have hsub := (hiso hrun₁ hrun₂).subsumes s.hierarchy
      exact absurd (hsub.acyclic (hcopy₂ rfl).1) hcycle
    | cyclic => exact .inl ⟨rfl, rfl⟩
    | clash => exact .inl ⟨rfl, rfl⟩
  | clash hrun₁ =>
    cases hended₂ with
    | result hrun₂ hk₂ hcopy₂ =>
      exact absurd hrun₁ (run_ne_halted_of_done hs hr hg ha hb hleft hright hrun₂ _)
    | cyclic => exact .inl ⟨rfl, rfl⟩
    | clash => exact .inl ⟨rfl, rfl⟩

end Order

/-- The prototypes of a type and of its subtype, which both ask for a value of the type `t`. -/
def inherited (t : TypeId) (nodes : List (TypeId × List Edge)) : Session :=
  Sample.session (Sample.grammar [(.of 3, [⟨0, 1⟩]), (t, []), (.of 4, [⟨0, 3⟩]), (t, [])]
    [(.of 3, 0), (.of 4, 2)]) nodes

theorem sound_inherited {t : TypeId} (ht : t ≠ .bottom) {nodes : List (TypeId × List Edge)}
    (hlisted : Sample.Listed nodes) : (inherited t nodes).Sound ∧ (inherited t nodes).AtRest := by
  refine Sample.sound_session (Sample.sound_grammar ?_ ?_ ?_) hlisted
  · simp [Sample.Listed]
  · simp [ht]
  · show ∀ p ∈ (Sample.grammar [] [(.of 3, 0), (.of 4, 2)]).roots.toList, p.2 < 4
    decide

/-- Operands that meet a prototype together. -/
def meeting : Session :=
  inherited (.of 2) [(.of 1, [⟨0, 1⟩]), (.top, []), (.of 2, [⟨0, 3⟩]), (.top, [])]

theorem sound_meeting : meeting.Sound ∧ meeting.AtRest := sound_inherited (by decide) (by decide)

theorem coherent_meeting : meeting.grammar.Coherent := by
  have hg := sound_meeting.1.grammar
  have hroots : ∀ {t root}, meeting.grammar.featuredPrototype? t = some root →
      (t = .of 3 ∧ root = 0) ∨ (t = .of 4 ∧ root = 2) := by
    intro t root h
    have hmem := Sample.mem_roots h
    have hlist : meeting.grammar.roots.toList = [(.of 3, 0), (.of 4, 2)] := by decide
    simpa [hlist] using hmem
  have hthree : meeting.grammar.featuredPrototype? (.of 3) = some 0 := by decide
  have hfour : meeting.grammar.featuredPrototype? (.of 4) = some 2 := by decide
  have hsub : meeting.grammar.prototypes.shape.Subsumes meeting.grammar.hierarchy 0
      meeting.grammar.prototypes.shape 2 :=
    hg.prototypes.subsumes_of_forall [0, 1] (by decide) hg.lattice.hierarchy (· + 2)
      (by decide +kernel)
  refine ⟨Grammar.wellformedPrototypes_of_forall hg [0, 1, 2, 3] (by decide) (by decide) (by decide),
    fun t u root hu hle hroot => ?_⟩
  have hcases : ∀ n < 5, (meeting.grammar.lattice.glb (.of 3) (.of n) = .of n → n = 3 ∨ n = 4) ∧
      (meeting.grammar.lattice.glb (.of 4) (.of n) = .of n → n = 4) := by decide +kernel
  rcases hroots hroot with ⟨rfl, rfl⟩ | ⟨rfl, rfl⟩
  · rcases Sample.eq_of_le (by decide) hle with rfl | rfl | ⟨n, hn, rfl, hglb⟩
    · exact absurd rfl hu
    · exact ⟨0, hthree, Shape.Subsumes.refl ..⟩
    · rcases (hcases n hn).1 hglb with rfl | rfl
      · exact ⟨0, hthree, Shape.Subsumes.refl ..⟩
      · exact ⟨2, hfour, hsub⟩
  · rcases Sample.eq_of_le (by decide) hle with rfl | rfl | ⟨n, hn, rfl, hglb⟩
    · exact absurd rfl hu
    · exact ⟨2, hfour, Shape.Subsumes.refl ..⟩
    · obtain rfl := (hcases n hn).2 hglb
      exact ⟨2, hfour, Shape.Subsumes.refl ..⟩

theorem proper_meeting : meeting.Proper 0 ∧ meeting.Proper 2 := by
  have hnone : ∀ n ∈ [0, 1, 2, 3], meeting.grammar.featuredPrototype? (meeting.graph.type n) = none ∧
      meeting.graph.type n ≠ .bottom := by decide
  have hproper : ∀ x ∈ [0, 1, 2, 3], meeting.Proper x := by
    intro x hx n hn
    obtain ⟨hproto, htype⟩ := hnone n (sound_meeting.1.graph.mem_of_reach _ hx (by decide) hn)
    refine ⟨fun f m root _ hroot => ?_, htype⟩
    have := hproto.symm.trans hroot
    cases this
  exact ⟨hproper 0 (by decide), hproper 2 (by decide)⟩

/-- Operands that meet a prototype together unify alike in both orders. -/
theorem unifyInto_comm_meeting : ∃ first second : Option NodeId × Session,
    meeting.unifyInto 20 0 2 unrestricted = some first ∧
      meeting.unifyInto 20 2 0 unrestricted = some second ∧ first.1.isSome ∧
        Alike first second := by
  have hanswer : (meeting.unifyInto 20 0 2 unrestricted).map (fun p => p.1.isSome) = some true := by
    decide +kernel
  have hanswer' : (meeting.unifyInto 20 2 0 unrestricted).isSome := by decide +kernel
  obtain ⟨first, h₁, hsome⟩ := Option.map_eq_some_iff.1 hanswer
  obtain ⟨second, h₂⟩ := Option.isSome_iff_exists.1 hanswer'
  exact ⟨first, second, h₁, h₂, hsome, unifyInto_comm sound_meeting.1 sound_meeting.2
    coherent_meeting (by decide) (by decide) proper_meeting.1 proper_meeting.2 h₁ h₂⟩

/-- The type at the end of a path in a result. -/
def typeAt? (path : List FeatureId) (answer : Option NodeId × Session) : Option TypeId :=
  answer.1.bind fun r => (answer.2.shape.follow? r path).map answer.2.shape.type

theorem Alike.typeAt_eq {first second : Option NodeId × Session} (h : Alike first second)
    (path : List FeatureId) : typeAt? path first = typeAt? path second := by
  rcases h with ⟨h₁, h₂⟩ | ⟨r, q, h₁, h₂, hiso⟩
  · rw [typeAt?, typeAt?, h₁, h₂]
    rfl
  · rw [typeAt?, typeAt?, h₁, h₂]
    exact (hiso.follow path path).1.symm

/-- The two orders of the operands come to their ends with answers that are not alike. -/
def OrderMatters (s : Session) (a b : NodeId) : Prop :=
  s.Sound ∧ s.AtRest ∧ a < s.graph.size ∧ b < s.graph.size ∧ ∃ budget first second,
    s.unifyInto budget a b unrestricted = some first ∧
      s.unifyInto budget b a unrestricted = some second ∧ ¬ Alike first second

theorem orderMatters_of_typeAt {s : Session} (hs : s.Sound ∧ s.AtRest) {a b : Nat}
    (ha : a < s.graph.size) (hb : b < s.graph.size) (budget : Nat) (path : List FeatureId)
    (t t' : Option TypeId) (hne : t ≠ t')
    (h₁ : (s.unifyInto budget a b unrestricted).map (typeAt? path) = some t)
    (h₂ : (s.unifyInto budget b a unrestricted).map (typeAt? path) = some t') :
    s.OrderMatters a b := by
  obtain ⟨first, hfirst, rfl⟩ := Option.map_eq_some_iff.1 h₁
  obtain ⟨second, hsecond, rfl⟩ := Option.map_eq_some_iff.1 h₂
  exact ⟨hs.1, hs.2, ha, hb, budget, first, second, hfirst, hsecond,
    fun h => hne (h.typeAt_eq path)⟩

/-- A node of an operand is not wellformed: it has a prototype's type and feature, and a value that
is too general. -/
def illformedOperand : Session :=
  inherited (.of 3) [(.of 1, [⟨0, 1⟩]), (.top, [⟨0, 2⟩]), (.top, []), (.of 2, [⟨0, 4⟩]),
    (.of 3, [⟨0, 5⟩]), (.top, [])]

/-- A node of a prototype is not wellformed, in the same way. -/
def illformedPrototype : Session :=
  Sample.session (Sample.grammar [(.of 2, [⟨0, 1⟩]), (.of 2, []), (.of 3, [⟨0, 3⟩, ⟨1, 4⟩]),
      (.of 2, []), (.of 2, [⟨0, 5⟩]), (.top, []), (.of 4, [⟨0, 7⟩, ⟨1, 8⟩]), (.of 2, []),
      (.of 2, [⟨0, 9⟩]), (.top, [])] [(.of 2, 0), (.of 3, 2), (.of 4, 6)])
    [(.of 1, [⟨0, 1⟩, ⟨1, 3⟩]), (.top, [⟨0, 2⟩]), (.top, []), (.top, []),
      (.of 2, [⟨0, 5⟩, ⟨1, 5⟩]), (.of 2, [])]

/-- A type has a prototype that its subtype does not inherit. -/
def uninherited : Session :=
  Sample.session (Sample.grammar [(.of 3, [⟨0, 1⟩]), (.of 3, [])] [(.of 3, 0)])
    [(.of 1, [⟨0, 1⟩]), (.top, [⟨0, 2⟩]), (.top, []), (.of 2, [⟨0, 4⟩]), (.of 4, [])]

/-- Two operands share a node of the type `bottom`. -/
def impossible : Session :=
  inherited (.of 3) [(.of 1, [⟨0, 1⟩]), (.top, [⟨0, 2⟩]), (.bottom, []), (.of 2, [⟨0, 4⟩]),
    (.of 3, [⟨0, 2⟩])]

/-- The order of the operands matters where one of the conditions of the law is not met, whichever
it is. -/
theorem not_unifyInto_comm : illformedOperand.OrderMatters 0 3 ∧
    illformedPrototype.OrderMatters 0 4 ∧ uninherited.OrderMatters 0 3 ∧
    impossible.OrderMatters 0 3 := by
  have hillformed : illformedPrototype.Sound ∧ illformedPrototype.AtRest :=
    Sample.sound_session (Sample.sound_grammar (by decide) (by decide) (by decide))
      (by decide)
  have huninherited : uninherited.Sound ∧ uninherited.AtRest :=
    Sample.sound_session (Sample.sound_grammar (by decide) (by decide) (by decide))
      (by decide)
  refine ⟨?_, ?_, ?_, ?_⟩
  · exact orderMatters_of_typeAt (sound_inherited (by decide) (by decide)) (by decide) (by decide)
      50 [0, 0] (some (.of 3)) (some .top) (by decide) (by decide +kernel) (by decide +kernel)
  · exact orderMatters_of_typeAt hillformed (by decide) (by decide)
      50 [0, 0] (some (.of 2)) (some .top) (by decide) (by decide +kernel) (by decide +kernel)
  · exact orderMatters_of_typeAt huninherited (by decide) (by decide)
      50 [0, 0] (some (.of 3)) (some .top) (by decide) (by decide +kernel) (by decide +kernel)
  · exact orderMatters_of_typeAt (sound_inherited (by decide) (by decide)) (by decide) (by decide)
      50 [] none (some (.of 3)) (by decide) (by decide +kernel) (by decide +kernel)

end Session

end FeatureLogic
