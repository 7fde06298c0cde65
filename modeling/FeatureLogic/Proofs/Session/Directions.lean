import FeatureLogic.Proofs.Pairing
import FeatureLogic.Proofs.Session.Stamps

/-!
Directions. A check of both directions notes the pairs of the first direction as pointers and those
of the second as copies. As long as both directions hold the notes mirror each other
(`Relating.Mirrored`), so a turn that meets a pair of one direction again leaves nothing undone in
the other, and a turn does to each direction what a check of that direction alone would do
(`Relating.turned`).
-/

namespace FeatureLogic

/-- A direction of a check, named for the structure that is to be the general one. -/
inductive Direction
  | first
  | second

/-- The copy, if the mark names one. -/
def CopyMark.node? : CopyMark → Option NodeId
  | .copied n => some n
  | _ => none

namespace Direction

/-- Of what the first and the second structure have, that of the general one. -/
def pick {α : Type} : Direction → α → α → α
  | first, x, _ => x
  | second, _, y => y

/-- The direction has not been dropped. -/
def Holds (d : Direction) (r : Relation) : Prop := d.pick r.firstGeneral r.secondGeneral = true

/-- The node that a node of the general structure is paired with. -/
def partner? (d : Direction) (g : Graph) (n : NodeId) : Option NodeId :=
  d.pick (g.forward? n) (g.copyMark n).node?

/-- To compare a node of the general structure with one of the other. -/
def compare (d : Direction) (general specific : NodeId) : RelateTask :=
  .compare (d.pick general specific) (d.pick specific general)

/-- The task tells of a feature that only the general structure has. -/
def Lacking : Direction → RelateTask → Prop
  | first, .onlyFirst _ | second, .onlySecond _ => True
  | _, _ => False

theorem compare_pick (d : Direction) (a b : NodeId) :
    d.compare (d.pick a b) (d.pick b a) = .compare a b := by
  cases d <;> rfl

theorem eq_pick_of_compare {d : Direction} {a b x y : NodeId}
    (h : RelateTask.compare a b = d.compare x y) : x = d.pick a b ∧ y = d.pick b a := by
  cases d <;> cases h <;> exact ⟨rfl, rfl⟩

theorem not_lacking_compare (d : Direction) (a b : NodeId) : ¬ d.Lacking (.compare a b) := by
  cases d <;> exact id

theorem isNone_iff {r : Relation} : r.isNone = true ↔ ∀ d : Direction, ¬ d.Holds r := by
  obtain ⟨p, q⟩ := r
  constructor
  · rintro h (_ | _) <;> simp_all [Relation.isNone, Holds, pick]
  · intro h
    have h₁ := h first
    have h₂ := h second
    simp_all [Relation.isNone, Holds, pick]

end Direction

namespace Session

theorem length_pairEdges_le (a : NodeId) (first second : List Edge) :
    (pairEdges a first second).length ≤ first.length + second.length := by
  fun_induction pairEdges a first second <;> simp_all <;> omega

/-- What is to be compared are values of both nodes, however their edges are ordered. -/
theorem of_compare_mem_pairEdges {a v w : NodeId} {first second : List Edge}
    (h : .compare v w ∈ pairEdges a first second) :
    ∃ d ∈ first, ∃ e ∈ second, d.target = v ∧ e.target = w := by
  fun_induction pairEdges a first second <;> grind

/-- Two edge lists are compared feature by feature. -/
theorem mem_pairEdges (a : NodeId) {first second : List Edge} (h : Edges.Sorted first)
    (h' : Edges.Sorted second) {task : RelateTask} : task ∈ pairEdges a first second ↔
      (∃ d ∈ first, ∃ e ∈ second, d.feature = e.feature ∧ task = .compare d.target e.target) ∨
      (task = .onlyFirst a ∧ ∃ d ∈ first, ∀ e ∈ second, e.feature ≠ d.feature) ∨
      (task = .onlySecond a ∧ ∃ e ∈ second, ∀ d ∈ first, d.feature ≠ e.feature) := by
  fun_induction pairEdges a first second with
  | case1 second => cases second <;> grind
  | case2 first _ => cases first <;> grind
  | case3 d first e second heq ih =>
    obtain ⟨hd, hfirst⟩ := List.pairwise_cons.1 h
    obtain ⟨he, hsecond⟩ := List.pairwise_cons.1 h'
    rw [List.mem_cons, ih hfirst hsecond]
    grind
  | case4 d first e second hne hlt ih =>
    obtain ⟨hd, hfirst⟩ := List.pairwise_cons.1 h
    obtain ⟨he, hsecond⟩ := List.pairwise_cons.1 h'
    rw [List.mem_cons, ih hfirst h']
    grind
  | case5 d first e second hne hlt ih =>
    obtain ⟨hd, hfirst⟩ := List.pairwise_cons.1 h
    obtain ⟨he, hsecond⟩ := List.pairwise_cons.1 h'
    rw [List.mem_cons, ih h hsecond]
    grind

section Edges

variable (d : Direction) (a : NodeId) {first second : List Edge} (h : Edges.Sorted first)
  (h' : Edges.Sorted second)
include h h'

theorem compare_mem_pairEdges {v w : NodeId} : d.compare v w ∈ pairEdges a first second ↔
    ∃ f, Edges.target? f (d.pick first second) = some v ∧
      Edges.target? f (d.pick second first) = some w := by
  rw [mem_pairEdges a h h']
  constructor
  · rintro (⟨⟨f, v'⟩, hd, ⟨_, w'⟩, he, rfl, heq⟩ | ⟨heq, -⟩ | ⟨heq, -⟩)
    · obtain ⟨rfl, rfl⟩ := Direction.eq_pick_of_compare heq.symm
      refine ⟨f, ?_⟩
      cases d with
      | first => exact ⟨(Edges.target?_eq_some_iff h).2 hd, (Edges.target?_eq_some_iff h').2 he⟩
      | second => exact ⟨(Edges.target?_eq_some_iff h').2 he, (Edges.target?_eq_some_iff h).2 hd⟩
    · cases heq
    · cases heq
  · rintro ⟨f, hv, hw⟩
    left
    cases d with
    | first =>
      exact ⟨_, (Edges.target?_eq_some_iff h).1 hv, _, (Edges.target?_eq_some_iff h').1 hw, rfl,
        rfl⟩
    | second =>
      exact ⟨_, (Edges.target?_eq_some_iff h).1 hw, _, (Edges.target?_eq_some_iff h').1 hv, rfl,
        rfl⟩

theorem lacking_mem_pairEdges : (∃ task ∈ pairEdges a first second, d.Lacking task) ↔
    ∃ f v, Edges.target? f (d.pick first second) = some v ∧
      Edges.target? f (d.pick second first) = none := by
  have hlacks : ∀ {general specific : List Edge}, Edges.Sorted general →
      ((∃ d ∈ general, ∀ e ∈ specific, e.feature ≠ d.feature) ↔
        ∃ f v, Edges.target? f general = some v ∧ Edges.target? f specific = none) := by
    intro general specific hsorted
    simp only [Edges.target?_eq_some_iff hsorted, Edges.target?_eq_none_iff]
    exact ⟨fun ⟨d, hd, hnone⟩ => ⟨d.feature, d.target, hd, hnone⟩,
      fun ⟨f, v, hd, hnone⟩ => ⟨⟨f, v⟩, hd, hnone⟩⟩
  simp only [mem_pairEdges a h h']
  cases d with
  | first =>
    refine .trans ⟨?_, fun hd => ⟨.onlyFirst a, .inr (.inl ⟨rfl, hd⟩), trivial⟩⟩ (hlacks h)
    rintro ⟨task, ⟨_, _, _, _, _, rfl⟩ | ⟨rfl, hd⟩ | ⟨rfl, -⟩, hlacking⟩
    · exact hlacking.elim
    · exact hd
    · exact hlacking.elim
  | second =>
    refine .trans ⟨?_, fun he => ⟨.onlySecond a, .inr (.inr ⟨rfl, he⟩), trivial⟩⟩ (hlacks h')
    rintro ⟨task, ⟨_, _, _, _, _, rfl⟩ | ⟨rfl, -⟩ | ⟨rfl, he⟩, hlacking⟩
    · exact hlacking.elim
    · exact hlacking.elim
    · exact he

end Edges

/-! ## Questions of one turn -/

/-- The types of the nodes allow that the first is the more general one. -/
def Fits (s : Session) (general specific : NodeId) : Prop :=
  s.hierarchy.Le (s.graph.currentType specific) (s.graph.currentType general)

/-- The second session is the first one with more pairs noted. -/
structure Further (s s' : Session) : Prop where
  noted : s.Noted s'
  currentType_eq : ∀ n, s'.graph.currentType n = s.graph.currentType n
  clean : (∀ n, s.graph.copyMark n ≠ .underway) → ∀ n, s'.graph.copyMark n ≠ .underway
  partner : ∀ (d : Direction) {n}, d.partner? s.graph n ≠ none → d.partner? s'.graph n ≠ none

theorem Further.trans {s₁ s₂ s₃ : Session} (h : s₁.Further s₂) (h' : s₂.Further s₃) :
    s₁.Further s₃ where
  noted := h.noted.trans h'.noted
  currentType_eq n := (h'.currentType_eq n).trans (h.currentType_eq n)
  clean hc := h'.clean (h.clean hc)
  partner d _ hn := h'.partner d (h.partner d hn)

/-- No note is different, though the lattice may know more. -/
theorem Further.of_graph_eq {s s' : Session} (h : s.Noted s') (hg : s'.graph = s.graph) :
    s.Further s' := by
  refine ⟨h, ?_, ?_, ?_⟩ <;> simp [hg]

theorem Further.refl (s : Session) : s.Further s := .of_graph_eq (.refl s) rfl

theorem Further.hierarchy_eq {s s' : Session} (h : s.Further s') (hs : s.grammar.Sound) :
    s'.hierarchy = s.hierarchy :=
  (h.noted.grammar.sound hs.lattice).2

theorem Further.fits_iff {s s' : Session} (h : s.Further s') (hs : s.grammar.Sound)
    {x y : NodeId} : s'.Fits x y ↔ s.Fits x y := by
  rw [Fits, Fits, h.currentType_eq, h.currentType_eq, h.hierarchy_eq hs]

end Session

/-! ## Pairs of one direction -/

namespace Direction

/-- The other of the two directions. -/
def other : Direction → Direction
  | first => second
  | second => first

theorem eq_or_eq_other (d d' : Direction) : d' = d ∨ d' = d.other := by
  cases d <;> cases d' <;> simp [other]

/-- Notes a pair of the direction. -/
def join (d : Direction) (g : Graph) (x y : NodeId) : Graph :=
  d.pick (g.setForward x y) (g.setCopyMark x (.copied y))

/-- The direction fails, as node `a` of the first structure shows. -/
def drop (d : Direction) (r : Relating) (a : NodeId) (kind : FailureKind) : Relating :=
  d.pick (r.dropFirst a kind) (r.dropSecond a kind)

/-- Pairs two nodes in a direction that holds, and tells whether they were a pair already. -/
def pair (d : Direction) (r : Relating) (x y : NodeId) : Bool × Relating :=
  if d.pick r.relation.firstGeneral r.relation.secondGeneral then
    match d.partner? r.session.graph x with
    | none => (false, ⟨r.session.mapGraph (d.join · x y), r.relation⟩)
    | some z => if z = y then (true, r) else (false, d.drop r (d.pick x y) .coreference)
  else (false, r)

section Join

variable (d : Direction) {g : Graph} {x : Nat} (y n : NodeId)

theorem partner?_join (hx : x < g.size) :
    d.partner? (d.join g x y) n = if x = n then some y else d.partner? g n := by
  cases d with
  | first => exact Graph.forward?_setForward n hx y
  | second =>
    show ((g.setCopyMark x (.copied y)).copyMark n).node? = _
    rw [Graph.copyMark_setCopyMark n hx]
    split <;> rfl

theorem partner?_other_join : d.other.partner? (d.join g x y) n = d.other.partner? g n := by
  cases d with
  | first => exact congrArg CopyMark.node? (Graph.copyMark_setForward ..)
  | second => exact Graph.forward?_setCopyMark ..

theorem further_join (s : Session) (hx : x < s.graph.size) :
    s.Further (s.mapGraph (d.join · x y)) where
  noted := by
    refine ⟨.refl _, ?_⟩
    cases d with
    | first => exact (Graph.Noted.refl s.graph).setForward x y
    | second => exact (Graph.Noted.refl s.graph).setCopyMark x (.copied y)
  currentType_eq n := by
    cases d with
    | first => exact Graph.currentType_setForward ..
    | second => exact Graph.currentType_setCopyMark ..
  clean hc n := by
    cases d with
    | first =>
      show (s.graph.setForward x y).copyMark n ≠ .underway
      rw [Graph.copyMark_setForward]
      exact hc n
    | second =>
      show (s.graph.setCopyMark x (.copied y)).copyMark n ≠ .underway
      rw [Graph.copyMark_setCopyMark n hx]
      split
      · exact CopyMark.noConfusion
      · exact hc n
  partner d' n hn := by
    rcases d.eq_or_eq_other d' with rfl | rfl
    · show d'.partner? (d'.join s.graph x y) n ≠ none
      rw [d'.partner?_join y n hx]
      split
      · exact Option.some_ne_none y
      · exact hn
    · show d.other.partner? (d.join s.graph x y) n ≠ none
      rwa [d.partner?_other_join]

end Join

section Drop

variable (d : Direction) (r : Relating) (a : NodeId) (kind : FailureKind)

theorem graph_drop : (d.drop r a kind).session.graph = r.session.graph := by cases d <;> rfl

theorem further_drop : r.session.Further (d.drop r a kind).session :=
  .of_graph_eq (by cases d <;> exact ⟨.refl _, .refl _⟩) (graph_drop ..)

theorem not_holds_drop : ¬ d.Holds (d.drop r a kind).relation := by
  cases d <;> exact Bool.false_ne_true

theorem holds_other_drop : d.other.Holds (d.drop r a kind).relation ↔ d.other.Holds r.relation := by
  cases d <;> exact .rfl

end Drop

/-- The direction is as it was. -/
structure Kept (d : Direction) (r r' : Relating) : Prop where
  holds_iff : d.Holds r'.relation ↔ d.Holds r.relation
  partner_eq : ∀ n, d.partner? r'.session.graph n = d.partner? r.session.graph n

theorem Kept.refl (d : Direction) (r : Relating) : d.Kept r r := ⟨.rfl, fun _ => rfl⟩

/-- The direction holds, and the nodes are a pair of it. -/
structure Meets (d : Direction) (x y : NodeId) (r : Relating) : Prop where
  holds : d.Holds r.relation
  partner_eq : d.partner? r.session.graph x = some y

/-- The direction holds, and the nodes have become a pair of it. -/
structure Joins (d : Direction) (x y : NodeId) (r r' : Relating) : Prop where
  holds : d.Holds r.relation
  partner_eq_none : d.partner? r.session.graph x = none
  partner_eq : ∀ n,
    d.partner? r'.session.graph n = if x = n then some y else d.partner? r.session.graph n

theorem Joins.partner_eq_some_iff {d : Direction} {x y : NodeId} {r r' : Relating}
    (h : d.Joins x y r r') {n m : NodeId} : d.partner? r'.session.graph n = some m ↔
      (n = x ∧ m = y) ∨ d.partner? r.session.graph n = some m := by
  rw [h.partner_eq]
  split
  · rename_i heq
    subst heq
    simp [h.partner_eq_none, eq_comm]
  · rename_i hne
    simp [Ne.symm hne]

/-- The nodes have become a pair of the direction, or it is dropped. -/
structure Tried (d : Direction) (x y : NodeId) (r r' : Relating) : Prop where
  further : r.session.Further r'.session
  other : d.other.Kept r r'
  joins : d.Holds r'.relation → d.Joins x y r r'
  conflict : d.Holds r.relation → ¬ d.Holds r'.relation →
    ∃ z, d.partner? r.session.graph x = some z ∧ z ≠ y

theorem pair_cases (d : Direction) (r : Relating) {x : Nat} (hx : x < r.session.graph.size)
    (y : NodeId) : (d.pair r x y = (true, r) ∧ d.Meets x y r) ∨
      ∃ r', d.pair r x y = (false, r') ∧ d.Tried x y r r' := by
  unfold pair
  split
  · rename_i hholds
    cases hpartner : d.partner? r.session.graph x with
    | none =>
      exact .inr ⟨_, rfl, d.further_join y r.session hx, ⟨.rfl, fun n => d.partner?_other_join y n⟩,
        fun _ => ⟨hholds, hpartner, fun n => d.partner?_join y n hx⟩,
        fun _ hnot => absurd hholds hnot⟩
    | some z =>
      by_cases heq : z = y
      · exact .inl ⟨if_pos heq, hholds, heq ▸ hpartner⟩
      · refine .inr ⟨_, if_neg heq, d.further_drop .., ⟨d.holds_other_drop .., fun n => ?_⟩,
          fun h => (d.not_holds_drop _ _ _ h).elim, fun _ _ => ⟨z, hpartner, heq⟩⟩
        rw [graph_drop]
  · rename_i hholds
    exact .inr ⟨r, rfl, .refl _, .refl _ _, fun h => absurd h hholds, fun h => absurd h hholds⟩

end Direction

namespace Relating

theorem pairFirst_eq (r : Relating) (a b : NodeId) :
    r.pairFirst a b = Direction.first.pair r a b := by
  obtain ⟨s, ρ⟩ := r
  rfl

theorem pairSecond_eq (r : Relating) {a b : NodeId}
    (hb : r.session.graph.copyMark b ≠ .underway) :
    r.pairSecond a b = Direction.second.pair r b a := by
  obtain ⟨s, ρ⟩ := r
  unfold pairSecond Direction.pair
  simp [Direction.pick, Direction.partner?, CopyMark.node?]
  cases hm : s.graph.copyMark b with
  | underway => exact absurd hm hb
  | blank => rfl
  | copied n => rfl

/-! ## Types -/

theorem orHalt_cases (r : Relating) (k : Relating → Turn Relating RelateTask Unit) :
    ((∃ d : Direction, d.Holds r.relation) ∧ r.orHalt k = k r) ∨
      ((∀ d : Direction, ¬ d.Holds r.relation) ∧ r.orHalt k = .halt r ()) := by
  unfold orHalt
  split
  · rename_i hnone
    exact .inr ⟨Direction.isNone_iff.1 hnone, rfl⟩
  · rename_i hsome
    rw [Direction.isNone_iff, not_forall_not] at hsome
    exact .inl ⟨hsome, rfl⟩

/-- Drops a direction if the lattice says that its types do not allow it. -/
def judge (d : Direction) (general specific : TypeId) (a : NodeId) (r : Relating) : Relating :=
  let (fits, session) := r.session.ask fun l => l.subsumes general specific
  if fits then ⟨session, r.relation⟩ else d.drop ⟨session, r.relation⟩ a .type

theorem compareTypes_eq (r : Relating) (a b : NodeId)
    (k : Relating → Turn Relating RelateTask Unit) : r.compareTypes a b k =
      let t := r.session.graph.currentType a
      let u := r.session.graph.currentType b
      if t = u then k r
      else (judge .first t u a r).orHalt fun r => (judge .second u t a r).orHalt k := by
  obtain ⟨s, ρ⟩ := r
  rfl

section Judge

variable (d : Direction) {r : Relating} (hs : r.session.grammar.Sound) (t u : TypeId) (a : NodeId)

theorem graph_judge (r : Relating) : (judge d t u a r).session.graph = r.session.graph := by
  simp only [judge]
  split
  · rfl
  · exact d.graph_drop ..

theorem further_judge (r : Relating) : r.session.Further (judge d t u a r).session := by
  refine .of_graph_eq ?_ (graph_judge ..)
  simp only [judge]
  split
  · exact (Session.Noted.refl _).subsumes ..
  · exact ((Session.Noted.refl _).subsumes t u).trans (d.further_drop ⟨_, _⟩ a .type).noted

theorem holds_other_judge (r : Relating) :
    d.other.Holds (judge d t u a r).relation ↔ d.other.Holds r.relation := by
  simp only [judge]
  split
  · exact .rfl
  · exact d.holds_other_drop ..

include hs

theorem holds_judge : d.Holds (judge d t u a r).relation ↔
    d.Holds r.relation ∧ r.session.hierarchy.Le u t := by
  have hanswer := hs.lattice.subsumes_iff t u
  simp only [judge]
  split
  · rename_i hfits
    exact (and_iff_left (hanswer.1 hfits)).symm
  · rename_i hfits
    exact iff_of_false (d.not_holds_drop _ _ _) fun h => hfits (hanswer.2 h.2)

end Judge

/-- The directions that the types of the nodes rule out have been dropped. -/
structure Typed (a b : NodeId) (r r' : Relating) : Prop where
  further : r.session.Further r'.session
  graph_eq : r'.session.graph = r.session.graph
  holds_iff : ∀ d : Direction, d.Holds r'.relation ↔
    d.Holds r.relation ∧ r.session.Fits (d.pick a b) (d.pick b a)

theorem typed_judge {r : Relating} (hs : r.session.grammar.Sound) (a b : NodeId) :
    Typed a b r (judge .second (r.session.graph.currentType b) (r.session.graph.currentType a) a
      (judge .first (r.session.graph.currentType a) (r.session.graph.currentType b) a r)) := by
  have hfirst := further_judge .first (r.session.graph.currentType a)
    (r.session.graph.currentType b) a r
  have hsound := hs.learned hfirst.noted.grammar
  refine ⟨hfirst.trans (further_judge ..), (graph_judge ..).trans (graph_judge ..), ?_⟩
  rintro (_ | _)
  · exact (holds_other_judge .second ..).trans (holds_judge .first hs ..)
  · refine (holds_judge .second hsound ..).trans (and_congr (holds_other_judge .first ..) ?_)
    rw [hfirst.hierarchy_eq hs]
    exact .rfl

/-- Either the walk goes on, or the types leave no direction. -/
theorem compareTypes_cases {r : Relating} (hs : r.session.grammar.Sound) (a b : NodeId)
    (hlive : ∃ d : Direction, d.Holds r.relation) (k : Relating → Turn Relating RelateTask Unit) :
    (∃ r', r.compareTypes a b k = k r' ∧ Typed a b r r' ∧
      ∃ d : Direction, d.Holds r'.relation) ∨
    ∃ r', r.compareTypes a b k = .halt r' () ∧ (∀ d : Direction, ¬ d.Holds r'.relation) ∧
      ∀ d : Direction, d.Holds r.relation → ¬ r.session.Fits (d.pick a b) (d.pick b a) := by
  rw [compareTypes_eq]
  dsimp only
  split
  · rename_i heq
    refine .inl ⟨r, rfl, ⟨.refl _, rfl, fun d => (and_iff_left ?_).symm⟩, hlive⟩
    cases d <;> simp only [Direction.pick, Session.Fits, heq] <;> exact Hierarchy.le_refl
  · have htyped := typed_judge hs a b
    rcases orHalt_cases (judge .first _ _ a r) _ with ⟨-, heq⟩ | ⟨hnone, heq⟩ <;> rw [heq]
    · rcases orHalt_cases (judge .second _ _ a (judge .first _ _ a r)) k with
        ⟨hsome, heq⟩ | ⟨hnone, heq⟩ <;> rw [heq]
      · exact .inl ⟨_, rfl, htyped, hsome⟩
      · exact .inr ⟨_, rfl, hnone, fun d hd hfits => hnone d ((htyped.holds_iff d).2 ⟨hd, hfits⟩)⟩
    · refine .inr ⟨_, rfl, hnone, ?_⟩
      rintro (_ | _) hd hfits
      · exact hnone .first ((holds_judge .first hs ..).2 ⟨hd, hfits⟩)
      · exact hnone .second ((holds_other_judge .first ..).2 hd)

/-! ## What a turn does -/

/-- Both directions have the same pairs as long as both hold. -/
def Mirrored (r : Relating) : Prop := (∀ d : Direction, d.Holds r.relation) → ∀ x y,
  Direction.first.partner? r.session.graph x = some y ↔
    Direction.second.partner? r.session.graph y = some x

end Relating

namespace Direction

/-- The task shows that the direction fails. -/
def Refutes (d : Direction) (task : RelateTask) (s : Session) : Prop :=
  d.Lacking task ∨ ∃ x y, task = d.compare x y ∧
    ((∃ z, d.partner? s.graph x = some z ∧ z ≠ y) ∨ ¬ s.Fits x y)

/-- There was nothing to be done for the direction. -/
structure Passes (d : Direction) (task : RelateTask) (r r' : Relating) : Prop where
  holds : d.Holds r.relation
  not_lacking : ¬ d.Lacking task
  partner_eq : ∀ n, d.partner? r'.session.graph n = d.partner? r.session.graph n
  met : ∀ {x y}, task = d.compare x y → d.partner? r.session.graph x = some y

end Direction

namespace Relating

/-- What a turn does to the directions that are left after it, and why others are not. -/
inductive Turned (r : Relating) (task : RelateTask) : Turn Relating RelateTask Unit → Prop
  /-- There was nothing to be done. -/
  | passed {r' : Relating} (further : r.session.Further r'.session)
    (passes : ∀ d : Direction, d.Holds r'.relation → d.Passes task r r')
    (refutes : ∀ d : Direction, d.Holds r.relation → ¬ d.Holds r'.relation →
      d.Refutes task r.session) : Turned r task (.next r' [])
  /-- Two nodes became a pair, and their values are to be compared. -/
  | joined {r' : Relating} {a b : NodeId} (heq : task = .compare a b)
    (further : r.session.Further r'.session) (live : ∃ d : Direction, d.Holds r'.relation)
    (joins : ∀ d : Direction, d.Holds r'.relation → d.Joins (d.pick a b) (d.pick b a) r r')
    (fits : ∀ d : Direction, d.Holds r'.relation → r.session.Fits (d.pick a b) (d.pick b a))
    (refutes : ∀ d : Direction, d.Holds r.relation → ¬ d.Holds r'.relation →
      d.Refutes task r.session) :
    Turned r task (.next r' (Session.pairEdges a (r.session.graph.edges a)
      (r.session.graph.edges b)))
  /-- No direction is left. -/
  | ended {r' : Relating} (none : ∀ d : Direction, ¬ d.Holds r'.relation)
    (refutes : ∀ d : Direction, d.Holds r.relation → d.Refutes task r.session) :
    Turned r task (.halt r' ())

/-- A feature that one structure lacks ends the direction that asks for it. -/
theorem turned_drop (d : Direction) (r : Relating) {task : RelateTask} (a : NodeId)
    (hlacking : d.Lacking task) (hother : ¬ d.other.Lacking task)
    (hcompare : ∀ (d : Direction) x y, task ≠ d.compare x y) :
    Turned r task ((d.drop r a .feature).orHalt fun r => .next r []) := by
  rcases orHalt_cases (d.drop r a .feature) (fun r => .next r []) with ⟨-, heq⟩ | ⟨hnone, heq⟩ <;>
    rw [heq]
  · refine .passed (d.further_drop ..) (fun d' hd' => ?_) (fun d' hd hd' => ?_)
    · rcases d.eq_or_eq_other d' with rfl | rfl
      · exact absurd hd' (d'.not_holds_drop _ _ _)
      · exact ⟨(d.holds_other_drop ..).1 hd', hother, fun n => by rw [d.graph_drop],
          fun heq => absurd heq (hcompare _ _ _)⟩
    · rcases d.eq_or_eq_other d' with rfl | rfl
      · exact .inl hlacking
      · exact absurd ((d.holds_other_drop ..).2 hd) hd'
  · refine .ended hnone fun d' hd => ?_
    rcases d.eq_or_eq_other d' with rfl | rfl
    · exact .inl hlacking
    · exact absurd ((d.holds_other_drop ..).2 hd) (hnone _)

section Compare

variable {r r₁ r₂ : Relating} {a b : NodeId}

/-- The nodes have become a pair of every direction that is left. -/
structure Joined (a b : NodeId) (r r' : Relating) : Prop where
  further : r.session.Further r'.session
  joins : ∀ d : Direction, d.Holds r'.relation → d.Joins (d.pick a b) (d.pick b a) r r'
  conflict : ∀ d : Direction, d.Holds r.relation → ¬ d.Holds r'.relation →
    ∃ z, d.partner? r.session.graph (d.pick a b) = some z ∧ z ≠ d.pick b a

theorem joined_of_tried (hfirst : Direction.first.Tried a b r r₁)
    (hsecond : Direction.second.Tried b a r₁ r₂) : Joined a b r r₂ where
  further := hfirst.further.trans hsecond.further
  joins := by
    rintro (_ | _) hd
    · obtain ⟨hholds, hnone, hpartner⟩ := hfirst.joins (hsecond.other.holds_iff.1 hd)
      exact ⟨hholds, hnone, fun n => (hsecond.other.partner_eq n).trans (hpartner n)⟩
    · obtain ⟨hholds, hnone, hpartner⟩ := hsecond.joins hd
      refine ⟨hfirst.other.holds_iff.1 hholds, (hfirst.other.partner_eq b).symm.trans hnone,
        fun n => (hpartner n).trans ?_⟩
      exact if_congr .rfl rfl (hfirst.other.partner_eq n)
  conflict := by
    rintro (_ | _) hd hnot
    · exact hfirst.conflict hd fun h => hnot (hsecond.other.holds_iff.2 h)
    · obtain ⟨z, hz, hne⟩ := hsecond.conflict (hfirst.other.holds_iff.2 hd) hnot
      exact ⟨z, (hfirst.other.partner_eq b).symm.trans hz, hne⟩

theorem refutes_of_conflict {d : Direction} {s : Session}
    (h : ∃ z, d.partner? s.graph (d.pick a b) = some z ∧ z ≠ d.pick b a) :
    d.Refutes (.compare a b) s :=
  .inr ⟨_, _, (d.compare_pick a b).symm, .inl h⟩

theorem refutes_of_not_fits {d : Direction} {s : Session}
    (h : ¬ s.Fits (d.pick a b) (d.pick b a)) : d.Refutes (.compare a b) s :=
  .inr ⟨_, _, (d.compare_pick a b).symm, .inr h⟩

theorem passes_of_meets {d : Direction} {r r' : Relating}
    (h : d.Meets (d.pick a b) (d.pick b a) r)
    (hsame : ∀ n, d.partner? r'.session.graph n = d.partner? r.session.graph n) :
    d.Passes (.compare a b) r r' := by
  refine ⟨h.holds, d.not_lacking_compare a b, hsame, fun heq => ?_⟩
  obtain ⟨rfl, rfl⟩ := Direction.eq_pick_of_compare heq
  exact h.partner_eq

/-- A pair of one direction is one of the other, if that holds, so the turn has nothing to do. -/
theorem turned_of_meets_first (hmirrored : Mirrored r) (h : Direction.first.Meets a b r) :
    Turned r (.compare a b) (.next r []) := by
  refine .passed (.refl _) ?_ fun d hd hnot => absurd hd hnot
  rintro (_ | _) hd
  · exact passes_of_meets (d := .first) h fun _ => rfl
  · have hboth : ∀ d : Direction, d.Holds r.relation := by
      rintro (_ | _)
      · exact h.holds
      · exact hd
    exact passes_of_meets (d := .second) ⟨hd, (hmirrored hboth a b).1 h.partner_eq⟩ fun _ => rfl

theorem turned_of_meets_second (hmirrored : Mirrored r)
    (hfirst : Direction.first.Tried a b r r₁) (h : Direction.second.Meets b a r₁) :
    Turned r (.compare a b) (.next r₁ []) := by
  have hmet : Direction.second.Meets b a r :=
    ⟨hfirst.other.holds_iff.1 h.holds, (hfirst.other.partner_eq b).symm.trans h.partner_eq⟩
  refine .passed hfirst.further ?_ ?_
  · rintro (_ | _) hd
    · -- the first direction would have had the pair as well
      obtain ⟨hholds, hnone, -⟩ := hfirst.joins hd
      have hboth : ∀ d : Direction, d.Holds r.relation := by
        rintro (_ | _)
        · exact hholds
        · exact hmet.holds
      rw [(hmirrored hboth a b).2 hmet.partner_eq] at hnone
      cases hnone
    · exact passes_of_meets (d := .second) hmet hfirst.other.partner_eq
  · rintro (_ | _) hd hnot
    · exact refutes_of_conflict (d := .first) (hfirst.conflict hd hnot)
    · exact absurd h.holds hnot

theorem turned_compare (hs : r.session.grammar.Sound)
    (hclean : ∀ n, r.session.graph.copyMark n ≠ .underway) (hmirrored : Mirrored r) {a b : Nat}
    (ha : a < r.session.graph.size) (hb : b < r.session.graph.size) :
    Turned r (.compare a b) (r.turn (.compare a b)) := by
  simp only [turn, pairFirst_eq]
  -- first the pairing in each direction, then the types of those that are left
  rcases Direction.first.pair_cases r ha b with ⟨heq, hmet⟩ | ⟨r₁, heq, hfirst⟩ <;>
    simp only [heq]
  · exact turned_of_meets_first hmirrored hmet
  rcases orHalt_cases r₁ _ with ⟨hlive, heq⟩ | ⟨hnone, heq⟩ <;> rw [heq]
  swap
  · refine .ended hnone ?_
    rintro (_ | _) hd
    · exact refutes_of_conflict (d := .first) (hfirst.conflict hd (hnone .first))
    · exact absurd (hfirst.other.holds_iff.2 hd) (hnone .second)
  rw [pairSecond_eq r₁ (hfirst.further.clean hclean b)]
  rcases Direction.second.pair_cases r₁ (hfirst.further.noted.graph.size_eq ▸ hb) a with
    ⟨heq, hmet⟩ | ⟨r₂, heq, hsecond⟩ <;> simp only [heq]
  · exact turned_of_meets_second hmirrored hfirst hmet
  have hjoined := joined_of_tried hfirst hsecond
  rcases orHalt_cases r₂ _ with ⟨hlive, heq⟩ | ⟨hnone, heq⟩ <;> rw [heq]
  swap
  · exact .ended hnone fun d hd => refutes_of_conflict (hjoined.conflict d hd (hnone d))
  have hfits : ∀ d : Direction, r₂.session.Fits (d.pick a b) (d.pick b a) ↔
      r.session.Fits (d.pick a b) (d.pick b a) := fun d => hjoined.further.fits_iff hs
  have hrefutes : ∀ d : Direction, d.Holds r.relation →
      (d.Holds r₂.relation → ¬ r₂.session.Fits (d.pick a b) (d.pick b a)) →
      d.Refutes (.compare a b) r.session := by
    intro d hd hnot
    by_cases hd₂ : d.Holds r₂.relation
    · exact refutes_of_not_fits fun h => hnot hd₂ ((hfits d).2 h)
    · exact refutes_of_conflict (hjoined.conflict d hd hd₂)
  rcases compareTypes_cases (hs.learned hjoined.further.noted.grammar) a b hlive _ with
    ⟨r₃, heq, htyped, hlive⟩ | ⟨r₃, heq, hnone, hdrop⟩ <;> rw [heq]
  · have hfurther := hjoined.further.trans htyped.further
    rw [hfurther.noted.graph.edges_eq, hfurther.noted.graph.edges_eq]
    refine .joined rfl hfurther hlive (fun d hd => ?_) (fun d hd => ?_) fun d hd hnot => ?_
    · obtain ⟨hholds, hnone, hpartner⟩ := hjoined.joins d ((htyped.holds_iff d).1 hd).1
      exact ⟨hholds, hnone, fun n => htyped.graph_eq ▸ hpartner n⟩
    · exact (hfits d).1 ((htyped.holds_iff d).1 hd).2
    · exact hrefutes d hd fun hd₂ h => hnot ((htyped.holds_iff d).2 ⟨hd₂, h⟩)
  · exact .ended hnone fun d hd => hrefutes d hd (hdrop d)

end Compare

theorem turned {r : Relating} (hs : r.session.grammar.Sound)
    (hclean : ∀ n, r.session.graph.copyMark n ≠ .underway) (hmirrored : Mirrored r)
    {task : RelateTask}
    (hlt : ∀ {a b : Nat}, task = .compare a b →
      a < r.session.graph.size ∧ b < r.session.graph.size) :
    Turned r task (r.turn task) := by
  cases task with
  | compare a b => exact turned_compare hs hclean hmirrored (hlt rfl).1 (hlt rfl).2
  | onlyFirst a => exact turned_drop .first r a trivial id (by rintro (_ | _) _ _ heq <;> cases heq)
  | onlySecond a =>
    exact turned_drop .second r a trivial id (by rintro (_ | _) _ _ heq <;> cases heq)

/-- A turn that goes on drops no direction without a reason. -/
theorem Turned.holds {r r' : Relating} {task : RelateTask} {tasks : List RelateTask}
    (h : Turned r task (.next r' tasks)) {d : Direction} (hd : d.Holds r.relation)
    (hkept : ¬ d.Refutes task r.session) : d.Holds r'.relation := by
  by_contra hnot
  cases h with
  | passed further passes refutes => exact hkept (refutes d hd hnot)
  | joined heq further live joins fits refutes => exact hkept (refutes d hd hnot)

/-- The notes of two directions that hold after a turn mirror each other as before. -/
theorem Turned.mirrored {r r' : Relating} {task : RelateTask} {tasks : List RelateTask}
    (h : Turned r task (.next r' tasks)) (hmirrored : Mirrored r) : Mirrored r' := by
  intro hboth x y
  cases h with
  | passed further passes refutes =>
    rw [(passes .first (hboth _)).partner_eq, (passes .second (hboth _)).partner_eq]
    exact hmirrored (fun d => (passes d (hboth d)).holds) x y
  | joined heq further live joins fits refutes =>
    have hsame := hmirrored fun d => (joins d (hboth d)).holds
    rw [(joins .first (hboth _)).partner_eq_some_iff, (joins .second (hboth _)).partner_eq_some_iff,
      hsame, and_comm]
    exact .rfl

end Relating

end FeatureLogic
