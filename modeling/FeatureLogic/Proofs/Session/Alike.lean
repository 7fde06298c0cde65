import FeatureLogic.Proofs.Graph.Alike
import FeatureLogic.Proofs.Session.Equality
import FeatureLogic.Proofs.Session.Relating

/-!
Sessions that are alike. Two sessions of one grammar, which may know more or less of its lattice,
have graphs that are alike; then the walks that compare structures are in step and find the same
(`Session.subsumes_eq`, `Session.relate_eq_of_corresponds`, `Session.equal_eq`).
-/

namespace FeatureLogic

theorem Grammar.Same.symm {g g' : Grammar} (h : g.Same g') : g'.Same g :=
  ⟨h.hierarchy_eq.symm, h.prototypes_eq.symm, h.roots_eq.symm⟩

namespace Session

/-- Two sessions of one grammar have graphs that are alike. -/
structure Corresponds (ρ : Correspondence) (s t : Session) : Prop where
  sound : s.grammar.Sound
  sound' : t.grammar.Sound
  same : s.grammar.Same t.grammar
  graph : s.graph.Alike ρ t.graph

section Corresponds

variable {ρ : Correspondence} {s t : Session} (h : s.Corresponds ρ t)
include h

theorem Corresponds.akin : s.grammar.lattice.Akin t.grammar.lattice :=
  Lattice.akin_of_sound h.sound.lattice h.sound'.lattice h.same.hierarchy_eq

theorem Corresponds.ofGraph {ρ' : Correspondence} {g k : Graph} {log log' : Option FailureLog}
    (hg : g.Alike ρ' k) : Corresponds ρ' ⟨s.grammar, g, log⟩ ⟨t.grammar, k, log'⟩ :=
  ⟨h.sound, h.sound', h.same, hg⟩

theorem Corresponds.mapGraph {ρ' : Correspondence} {f f' : Graph → Graph}
    (hf : (f s.graph).Alike ρ' (f' t.graph)) : (s.mapGraph f).Corresponds ρ' (t.mapGraph f') :=
  h.ofGraph hf

theorem Corresponds.subsumes_eq (x y : TypeId) :
    (s.ask fun l => l.subsumes x y).1 = (t.ask fun l => l.subsumes x y).1 :=
  h.akin.subsumes_eq x y

theorem Corresponds.subsumes (x y : TypeId) :
    Corresponds ρ (s.ask fun l => l.subsumes x y).2 (t.ask fun l => l.subsumes x y).2 where
  sound := sound_ask_subsumes h.sound x y
  sound' := sound_ask_subsumes h.sound' x y
  same := (same_ask_subsumes s x y).symm.trans (h.same.trans (same_ask_subsumes t x y))
  graph := h.graph

end Corresponds

/-! ## One direction -/

/-- The same task for nodes that correspond. -/
inductive SubsumeAlike (ρ : Correspondence) : SubsumeTask → SubsumeTask → Prop
  | compare {a b a' b' : NodeId} (ha : ρ a a') (hb : ρ b b') :
    SubsumeAlike ρ (.compare a b) (.compare a' b')
  | missing : SubsumeAlike ρ .missing .missing

theorem matchEdges_alike {ρ : Correspondence} {specific specific' general general' : List Edge}
    (hspecific : Edges.Alike ρ specific specific') (hgeneral : Edges.Alike ρ general general') :
    List.Forall₂ (SubsumeAlike ρ) (matchEdges specific general)
      (matchEdges specific' general') := by
  induction hgeneral with
  | nil => exact .nil
  | @cons d e _ _ hde _ ih =>
    have htarget := hspecific.target? d.feature
    unfold matchEdges
    rw [← hde.1]
    generalize Edges.target? d.feature specific = target,
      Edges.target? d.feature specific' = target' at htarget
    cases htarget with
    | none => exact .cons .missing .nil
    | some htarget => exact .cons (.compare hde.2 htarget) ih

/-- Checks of nodes that correspond are in step. -/
theorem inStep_subsumeTurn (ρ : Correspondence) : Agenda.InStep subsumeTurn subsumeTurn
    (Agenda.Abreast (fun _ _ => True) (fun _ _ => True) (fun _ => Corresponds ρ)
      (fun _ => SubsumeAlike ρ) ()) := by
  refine Agenda.inStep_of_abreast ⟨fun _ _ => trivial⟩ ⟨fun _ _ => trivial⟩ (fun _ h => h) ()
    fun {_ s task waiting t task' waiting'} h htask _ _ => ?_
  cases htask with
  | missing => exact .halt
  | @compare a b a' b' ha hb =>
    have hforward := h.graph.forward? ha
    simp only [subsumeTurn]
    generalize s.graph.forward? a = next, t.graph.forward? a' = next' at hforward
    cases hforward with
    | some hpartner =>
      simp only [h.graph.eq_iff hpartner hb]
      split
      · exact .next ⟨(), le_rfl, h, .nil⟩
      · exact .halt
    | none =>
      have hpaired : (s.mapGraph (·.setForward a b)).Corresponds ρ
          (t.mapGraph (·.setForward a' b')) := h.mapGraph (h.graph.setForward ha hb)
      simp only [hpaired.graph.currentType_eq ha, hpaired.graph.currentType_eq hb,
        hpaired.subsumes_eq]
      split
      · have hasked := hpaired.subsumes ((t.mapGraph (·.setForward a' b')).graph.currentType a')
          ((t.mapGraph (·.setForward a' b')).graph.currentType b')
        exact .next ⟨(), le_rfl, hasked,
          matchEdges_alike (hasked.graph.edges hb) (hasked.graph.edges ha)⟩
      · exact .halt

theorem subsumes_eq {ρ : Correspondence} {s t : Session} (h : s.Corresponds ρ t)
    (hs : s.graph.EdgesLead) (ht : t.graph.EdgesLead) {a b a' b' : NodeId} (ha : ρ a a')
    (hb : ρ b b') : (s.subsumes a b).1 = (t.subsumes a' b').1 := by
  obtain ⟨hlta, hlta'⟩ := h.graph.lt ha
  obtain ⟨hltb, hltb'⟩ := h.graph.lt hb
  have hends := (inStep_subsumeTurn ρ).run_of_ne_spent
    ⟨trivial, trivial, (), le_rfl, h, .cons (.compare ha hb) .nil⟩
    (run_subsumeTurn_ne_spent h.sound hs hlta hltb)
    (run_subsumeTurn_ne_spent h.sound' ht hlta' hltb')
  unfold subsumes
  revert hends
  generalize Agenda.run subsumeTurn s.graph.weight s [.compare a b] = ending
  generalize Agenda.run subsumeTurn t.graph.weight t [.compare a' b'] = ending'
  intro hends
  cases hends <;> rfl

/-! ## Equality -/

theorem valuePairs_alike {ρ : Correspondence} {first first' second second' : List Edge}
    (hfirst : Edges.Alike ρ first first') (hsecond : Edges.Alike ρ second second') :
    List.Forall₂ (fun p q => ρ p.1 q.1 ∧ ρ p.2 q.2) (valuePairs first second)
      (valuePairs first' second') := by
  induction hfirst generalizing second second' with
  | nil => exact .nil
  | cons hde _ ih =>
    cases hsecond with
    | nil => exact .nil
    | cons hde' hrest => exact .cons ⟨hde.2, hde'.2⟩ (ih hrest)

/-- Comparisons of nodes that correspond are in step. -/
theorem inStep_equalTurn (ρ : Correspondence) : Agenda.InStep equalTurn equalTurn
    (Agenda.Abreast (fun _ _ => True) (fun _ _ => True) (fun _ => Graph.Alike ρ)
      (fun _ p q => ρ p.1 q.1 ∧ ρ p.2 q.2) ()) := by
  refine Agenda.inStep_of_abreast ⟨fun _ _ => trivial⟩ ⟨fun _ _ => trivial⟩ (fun _ h => h) ()
    fun {_ g pair waiting k pair' waiting'} h hpair _ _ => ?_
  obtain ⟨a, b⟩ := pair
  obtain ⟨a', b'⟩ := pair'
  obtain ⟨ha, hb⟩ : ρ a a' ∧ ρ b b' := hpair
  have hfirst := h.forward? ha
  have hsecond := h.forward? hb
  have hsame := h.option_eq_iff hfirst hsecond
  simp only [equalTurn]
  generalize g.forward? a = p, k.forward? a' = p' at hfirst hsame
  generalize g.forward? b = q, k.forward? b' = q' at hsecond hsame
  cases hfirst with
  | none =>
    cases hsecond with
    | some => exact .halt
    | none =>
      have hcoupled := (h.setForward hb ha).setForward ha ha
      simp only [hcoupled.type_eq ha, hcoupled.type_eq hb, (hcoupled.edges ha).features_eq,
        (hcoupled.edges hb).features_eq]
      split
      · exact .next ⟨(), le_rfl, hcoupled,
          valuePairs_alike (hcoupled.edges ha) (hcoupled.edges hb)⟩
      · exact .halt
  | some hp =>
    simp only [hsame]
    split
    · exact .next ⟨(), le_rfl, h, .nil⟩
    · exact .halt

theorem equal_eq {ρ : Correspondence} {s t : Session} (h : s.graph.Alike ρ t.graph)
    (hs : s.graph.EdgesLead) (ht : t.graph.EdgesLead) {a b a' b' : NodeId} (ha : ρ a a')
    (hb : ρ b b') : (s.equal a b).1 = (t.equal a' b').1 := by
  obtain ⟨hlta, hlta'⟩ := h.lt ha
  obtain ⟨hltb, hltb'⟩ := h.lt hb
  have hends := (inStep_equalTurn ρ).run_of_ne_spent
    ⟨trivial, trivial, (), le_rfl, h, .cons ⟨ha, hb⟩ .nil⟩
    (run_equalTurn_ne_spent hs hlta hltb) (run_equalTurn_ne_spent ht hlta' hltb')
  simp only [equal]
  revert hends
  generalize Agenda.run equalTurn s.graph.weight s.graph [(a, b)] = ending
  generalize Agenda.run equalTurn t.graph.weight t.graph [(a', b')] = ending'
  intro hends
  cases hends <;> rfl

/-! ## Both directions -/

/-- The same task for nodes that correspond. -/
inductive RelateAlike (ρ : Correspondence) : RelateTask → RelateTask → Prop
  | compare {a b a' b' : NodeId} (ha : ρ a a') (hb : ρ b b') :
    RelateAlike ρ (.compare a b) (.compare a' b')
  | onlyFirst {a a' : NodeId} : RelateAlike ρ (.onlyFirst a) (.onlyFirst a')
  | onlySecond {a a' : NodeId} : RelateAlike ρ (.onlySecond a) (.onlySecond a')

theorem pairEdges_alike {ρ : Correspondence} {first first' second second' : List Edge}
    (a a' : NodeId) (hfirst : Edges.Alike ρ first first') (hsecond : Edges.Alike ρ second second') :
    List.Forall₂ (RelateAlike ρ) (pairEdges a first second) (pairEdges a' first' second') := by
  induction hfirst generalizing second second' with
  | nil =>
    unfold pairEdges
    rw [List.forall₂_map_left_iff, List.forall₂_map_right_iff]
    exact hsecond.imp fun _ _ _ => .onlySecond
  | @cons d e first first' hde hrest ih =>
    induction hsecond with
    | nil =>
      unfold pairEdges
      rw [List.forall₂_map_left_iff, List.forall₂_map_right_iff]
      have hall : Edges.Alike ρ (d :: first) (e :: first') := .cons hde hrest
      exact hall.imp fun _ _ _ => .onlyFirst
    | @cons d' e' second second' hde' hrest' ih' =>
      unfold pairEdges
      rw [hde.1, hde'.1]
      split
      · exact .cons (.compare hde.2 hde'.2) (ih hrest')
      · split
        · exact .cons .onlyFirst (ih (.cons hde' hrest'))
        · exact .cons .onlySecond ih'

end Session

namespace Relating

/-- The same directions are left, and the sessions are alike. -/
structure Alike (ρ : Correspondence) (r r' : Relating) : Prop where
  session : r.session.Corresponds ρ r'.session
  relation_eq : r.relation = r'.relation

/-- Turns that are alike. -/
abbrev TurnsAlike (ρ : Correspondence) :
    Turn Relating RelateTask Unit → Turn Relating RelateTask Unit → Prop :=
  Agenda.TurnsAlike fun r tasks r' tasks' => ∃ w : Unit, () ≤ w ∧ Alike ρ r r' ∧
    List.Forall₂ (Session.RelateAlike ρ) tasks tasks'

section Turns

variable {ρ : Correspondence} {r r' : Relating} (h : r.Alike ρ r')
include h

theorem Alike.dropFirst (a a' : NodeId) (kind : FailureKind) :
    Alike ρ (r.dropFirst a kind) (r'.dropFirst a' kind) where
  session := ⟨h.session.sound, h.session.sound', h.session.same, h.session.graph⟩
  relation_eq := by rw [Relating.dropFirst, Relating.dropFirst, h.relation_eq]

theorem Alike.dropSecond (a a' : NodeId) (kind : FailureKind) :
    Alike ρ (r.dropSecond a kind) (r'.dropSecond a' kind) where
  session := ⟨h.session.sound, h.session.sound', h.session.same, h.session.graph⟩
  relation_eq := by rw [Relating.dropSecond, Relating.dropSecond, h.relation_eq]

theorem Alike.orHalt {k k' : Relating → Turn Relating RelateTask Unit}
    (hk : ∀ {r r' : Relating}, r.Alike ρ r' → TurnsAlike ρ (k r) (k' r')) :
    TurnsAlike ρ (r.orHalt k) (r'.orHalt k') := by
  unfold Relating.orHalt
  rw [h.relation_eq]
  split
  · exact .halt
  · exact hk h

/-- The directions drop alike that the types rule out. -/
theorem Alike.judge (d : Direction) (t u : TypeId) (a a' : NodeId) :
    Alike ρ (Relating.judge d t u a r) (Relating.judge d t u a' r') := by
  have hasked : Alike ρ ⟨(r.session.ask fun l => l.subsumes t u).2, r.relation⟩
      ⟨(r'.session.ask fun l => l.subsumes t u).2, r'.relation⟩ :=
    ⟨h.session.subsumes t u, h.relation_eq⟩
  simp only [Relating.judge, h.session.subsumes_eq]
  split
  · exact hasked
  · cases d with
    | first => exact hasked.dropFirst ..
    | second => exact hasked.dropSecond ..

theorem Alike.compareTypes {a b a' b' : NodeId} (ha : ρ a a') (hb : ρ b b')
    {k k' : Relating → Turn Relating RelateTask Unit}
    (hk : ∀ {r r' : Relating}, r.Alike ρ r' → TurnsAlike ρ (k r) (k' r')) :
    TurnsAlike ρ (r.compareTypes a b k) (r'.compareTypes a' b' k') := by
  rw [compareTypes_eq, compareTypes_eq]
  simp only [h.session.graph.currentType_eq ha, h.session.graph.currentType_eq hb]
  split
  · exact hk h
  · exact (h.judge ..).orHalt fun h => (h.judge ..).orHalt hk

variable {a b a' b' : NodeId} (ha : ρ a a') (hb : ρ b b')
include ha hb

theorem Alike.pairFirst : (r.pairFirst a b).1 = (r'.pairFirst a' b').1 ∧
    Alike ρ (r.pairFirst a b).2 (r'.pairFirst a' b').2 := by
  obtain ⟨s, relation⟩ := r
  obtain ⟨s', relation'⟩ := r'
  obtain ⟨hs, rfl⟩ := h
  have hforward := hs.graph.forward? ha
  simp only [Relating.pairFirst]
  split
  · generalize s.graph.forward? a = next, s'.graph.forward? a' = next' at hforward
    cases hforward with
    | none =>
      have hjoined : Session.Corresponds ρ (s.mapGraph (·.setForward a b))
          (s'.mapGraph (·.setForward a' b')) :=
        Session.Corresponds.mapGraph hs (hs.graph.setForward ha hb)
      exact ⟨rfl, hjoined, rfl⟩
    | some hpartner =>
      simp only [hs.graph.eq_iff hpartner hb]
      split
      · exact ⟨rfl, hs, rfl⟩
      · exact ⟨rfl, Alike.dropFirst ⟨hs, rfl⟩ ..⟩
  · exact ⟨rfl, hs, rfl⟩

theorem Alike.pairSecond : (r.pairSecond a b).1 = (r'.pairSecond a' b').1 ∧
    Alike ρ (r.pairSecond a b).2 (r'.pairSecond a' b').2 := by
  obtain ⟨s, relation⟩ := r
  obtain ⟨s', relation'⟩ := r'
  obtain ⟨hs, rfl⟩ := h
  have hmark := hs.graph.copyMark hb
  simp only [Relating.pairSecond]
  split
  · generalize s.graph.copyMark b = mark, s'.graph.copyMark b' = mark' at hmark
    cases hmark with
    | blank =>
      have hjoined : Session.Corresponds ρ (s.mapGraph (·.setCopyMark b (.copied a)))
          (s'.mapGraph (·.setCopyMark b' (.copied a'))) :=
        Session.Corresponds.mapGraph hs (hs.graph.setCopyMark hb (.copied ha))
      exact ⟨rfl, hjoined, rfl⟩
    | underway => exact ⟨rfl, Alike.dropSecond ⟨hs, rfl⟩ ..⟩
    | copied hpartner =>
      simp only [hs.graph.eq_iff hpartner ha]
      split
      · exact ⟨rfl, hs, rfl⟩
      · exact ⟨rfl, Alike.dropSecond ⟨hs, rfl⟩ ..⟩
  · exact ⟨rfl, hs, rfl⟩

/-- A turn for nodes that correspond. -/
theorem Alike.compare : TurnsAlike ρ (r.turn (.compare a b)) (r'.turn (.compare a' b')) := by
  obtain ⟨hmet, hfirst⟩ := h.pairFirst ha hb
  simp only [turn]
  generalize r.pairFirst a b = paired, r'.pairFirst a' b' = paired' at hmet hfirst
  obtain ⟨met, r₁⟩ := paired
  obtain ⟨met', r₁'⟩ := paired'
  obtain rfl : met = met' := hmet
  cases met with
  | true => exact .next ⟨(), le_rfl, hfirst, .nil⟩
  | false =>
    refine Alike.orHalt hfirst fun {r r'} h => ?_
    obtain ⟨hmet, hsecond⟩ := h.pairSecond ha hb
    generalize r.pairSecond a b = paired, r'.pairSecond a' b' = paired' at hmet hsecond
    obtain ⟨met, r₂⟩ := paired
    obtain ⟨met', r₂'⟩ := paired'
    obtain rfl : met = met' := hmet
    cases met with
    | true => exact .next ⟨(), le_rfl, hsecond, .nil⟩
    | false =>
      refine Alike.orHalt hsecond fun h => h.compareTypes ha hb fun h => ?_
      exact .next ⟨(), le_rfl, h, Session.pairEdges_alike _ _ (h.session.graph.edges ha)
        (h.session.graph.edges hb)⟩

end Turns

/-- Checks of both directions of nodes that correspond are in step. -/
theorem inStep_turn (ρ : Correspondence) : Agenda.InStep turn turn
    (Agenda.Abreast (fun _ _ => True) (fun _ _ => True) (fun _ => Alike ρ)
      (fun _ => Session.RelateAlike ρ) ()) := by
  refine Agenda.inStep_of_abreast ⟨fun _ _ => trivial⟩ ⟨fun _ _ => trivial⟩ (fun _ h => h) ()
    fun {_ r task waiting r' task' waiting'} h htask _ _ => ?_
  cases htask with
  | compare ha hb => exact h.compare ha hb
  | onlyFirst => exact (h.dropFirst ..).orHalt fun h => .next ⟨(), le_rfl, h, .nil⟩
  | onlySecond => exact (h.dropSecond ..).orHalt fun h => .next ⟨(), le_rfl, h, .nil⟩

end Relating

namespace Session

/-- A check of both directions that is ended has none left. -/
theorem relation_of_halted {s : Session} (hs : s.grammar.Sound) (hg : s.graph.EdgesLead)
    (hr : s.AtRest) {a b : Nat} (ha : a < s.graph.size) (hb : b < s.graph.size) {fuel : Nat}
    {r : Relating} {answer : Unit} {waiting : List RelateTask}
    (h : Agenda.run Relating.turn fuel s.relating [.compare a b] = .halted r answer waiting) :
    r.relation = ⟨false, false⟩ := by
  obtain ⟨r₁, task, h₁, ht⟩ := (keeps_weighs hs hr hg).halted (weighs_start hr ha hb) h
  have hturned := h₁.turned hs hr
  rw [ht] at hturned
  cases hturned with
  | ended none refutes =>
    have hfirst : ¬ r.relation.firstGeneral = true := none .first
    have hsecond : ¬ r.relation.secondGeneral = true := none .second
    generalize r.relation = relation at hfirst hsecond
    obtain ⟨p, q⟩ := relation
    simp_all

theorem relate_eq_of_corresponds {ρ : Correspondence} {s t : Session} (h : s.Corresponds ρ t)
    (hs : s.graph.EdgesLead) (ht : t.graph.EdgesLead) (hr : s.AtRest) (hr' : t.AtRest)
    {a b a' b' : NodeId} (ha : ρ a a') (hb : ρ b b') : (s.relate a b).1 = (t.relate a' b').1 := by
  obtain ⟨hlta, hlta'⟩ := h.graph.lt ha
  obtain ⟨hltb, hltb'⟩ := h.graph.lt hb
  have hstart : s.relating.Alike ρ t.relating := ⟨⟨h.sound, h.sound', h.same, h.graph⟩, rfl⟩
  have hends := (Relating.inStep_turn ρ).run_of_ne_spent
    ⟨trivial, trivial, (), le_rfl, hstart, .cons (.compare ha hb) .nil⟩
    (run_relating_ne_spent h.sound hs hr hlta hltb)
    (run_relating_ne_spent h.sound' ht hr' hlta' hltb')
  have hnone := @relation_of_halted s h.sound hs hr a b hlta hltb
    (2 * (s.graph.weight + 1) * (s.graph.weight + 1))
  have hnone' := @relation_of_halted t h.sound' ht hr' a' b' hlta' hltb'
    (2 * (t.graph.weight + 1) * (t.graph.weight + 1))
  have hne := run_relating_ne_spent h.sound hs hr hlta hltb
  rw [relate_eq, relate_eq]
  -- both come to an end, and one that is cut short finds no relation
  revert hends hnone hnone' hne
  generalize Agenda.run Relating.turn _ s.relating [.compare a b] = ending
  generalize Agenda.run Relating.turn _ t.relating [.compare a' b'] = ending'
  intro hends hnone hnone' hne
  cases hends with
  | done hdone =>
    obtain ⟨-, -, -, -, hdone, -⟩ := hdone
    exact hdone.relation_eq
  | halted => exact (hnone rfl).trans (hnone' rfl).symm
  | spent => exact absurd rfl (hne _ _)

end Session

end FeatureLogic
