import FeatureLogic.Session.Item
import FeatureLogic.Proofs.QuickCheck.Positions
import FeatureLogic.Proofs.Sample
import FeatureLogic.Proofs.Unify.Endless

/-!
Quick check turns nothing away that would unify. Where vectors of listed paths are not compatible,
some path leads to types without a common subtype in both structures, and a unification that came to
an end without a clash would have to give both nodes one type.
-/

open Relation

namespace FeatureLogic

/-- The end of a path is its end in the structure of the episode. -/
theorem QuickCheck.endOf?_eq_follow? {g : Graph} (hg : g.Entangled) (root : NodeId)
    (path : List FeatureId) : endOf? g root path = g.web.view.follow? (g.deref root) path := by
  have hfold : ∀ {n : NodeId}, g.deref n = n →
      path.foldlM g.currentValue? n = g.web.view.follow? n path := by
    induction path with
    | nil => exact fun _ => rfl
    | cons f rest ih =>
      intro n hn
      have hvalue : g.currentValue? n f = g.web.view.value? n f := by
        rw [Graph.currentValue?, hn]
        rfl
      rw [Shape.follow?, List.foldlM_cons, List.foldlM_cons, hvalue]
      refine Option.bind_congr fun m hm => ?_
      obtain ⟨k, -, rfl⟩ := Option.map_eq_some_iff.1 hm
      exact ih (hg.deref_deref k)
  exact hfold (hg.deref_deref root)

namespace Session

/-! ## Committed structure in an episode -/

/-- What is committed below `x` is there in the structure of the episode, maybe with more specific
types and more coreferences. -/
def Intact (s : Session) (x : NodeId) : Prop := s.shape.Maps s.hierarchy x s.current s.graph.deref

theorem intact_of_atRest {s : Session} (hr : s.AtRest) (x : NodeId) : s.Intact x := by
  have hrep : s.graph.deref = id := funext hr.web_rep
  have hview : s.current = s.shape := hr.view_eq
  rw [Intact, hrep, hview]
  exact ⟨fun _ => Hierarchy.le_refl, fun _ hf => hf⟩

section Entangle

variable {s s' : Session} (hs : s.Sound) (he : s.graph.Entangled) {a b : Nat}
  (ha : a < s.graph.size) (hb : b < s.graph.size) {budget : Nat}

theorem run_of_entangle (h : s.entangle budget a b = some (true, s')) :
    Agenda.run unifyTurn budget s [.pair a b] = .done s' := by
  simp only [entangle, unifyNodes] at h
  cases hrun : Agenda.run unifyTurn budget s [.pair a b] with
  | done s₁ =>
    simp only [hrun, Option.map_some, if_true, Option.some.injEq, Prod.mk.injEq, true_and] at h
    rw [h]
  | halted s₁ answer waiting => simp [hrun] at h
  | spent s₁ waiting => simp [hrun] at h

include hs he ha hb

/-- A unification whose result stays entangled leaves committed structure as it is, and what was
there of it in the episode is there still. -/
theorem intact_entangle (h : s.entangle budget a b = some (true, s')) :
    s'.Sound ∧ s'.graph.Entangled ∧ s.Later s' ∧
      ∀ {x : Nat}, x < s.graph.size → s.Intact x → s'.Intact x := by
  have hrun := run_of_entangle h
  have hu := unifying_of_done hs he ha hb hrun
  have hext := hu.extends_start
  refine ⟨⟨hu.grammar, hu.graph.sound⟩, hu.graph, ⟨hu.same, hext⟩, fun {x} hx hintact => ?_⟩
  -- the committed structure below `x` is the same as before
  have hback : ∀ {n}, s'.shape.Reach x n → s.shape.Reach x n := by
    intro n hn
    induction hn with
    | refl => exact ReflTransGen.refl
    | tail _ hstep ih =>
      obtain ⟨f, hf⟩ := hstep
      exact ih.value ((hext.value_eq (hs.graph.reach_lt hx ih) f).symm.trans hf)
  have hmaps := hintact.comp hs.grammar.lattice.hierarchy (maps_of_done hs he ha hb hrun hx)
  have hrep : s'.graph.web.rep ∘ s.graph.deref = s'.graph.deref :=
    funext (rep_rep_of_done hs he ha hb hrun)
  rw [hrep] at hmaps
  refine ⟨fun {n} hn => ?_, fun {n f m} hn hf => ?_⟩
  · have htype : s'.shape.type n = s.shape.type n := hext.type_eq (hs.graph.reach_lt hx (hback hn))
    have horder : s'.hierarchy = s.hierarchy := hu.same.hierarchy_eq
    rw [horder, htype]
    exact hmaps.type_le (hback hn)
  · exact hmaps.value (hback hn)
      ((hext.value_eq (hs.graph.reach_lt hx (hback hn)) f).symm.trans hf)

/-- Structures do not unify if a path leads to types without a common subtype in them. -/
theorem run_ne_done_of_clash {path : List FeatureId} {n m : NodeId}
    (hleft : s.current.follow? (s.graph.deref a) path = some n)
    (hright : s.current.follow? (s.graph.deref b) path = some m)
    (htype : s.current.type n ≠ .bottom)
    (hglb : s.grammar.lattice.glb (s.current.type n) (s.current.type m) = .bottom) :
    Agenda.run unifyTurn budget s [.pair a b] ≠ .done s' := by
  intro hrun
  obtain ⟨hn, hrep⟩ := he.web_sound.reach_lt ha (Shape.reach_of_follow hleft)
  obtain ⟨hfirst, hle⟩ := (maps_of_done hs he ha hb hrun ha).follow hleft
  obtain ⟨hsecond, hle'⟩ := (maps_of_done hs he ha hb hrun hb).follow hright
  have hself := rep_rep_of_done hs he ha hb hrun
  -- both paths end at one class, whose type is below both types
  have hsame : s'.graph.web.rep n = s'.graph.web.rep m := by
    have hroots := rep_of_done hs he ha hb hrun
    rw [← hself a, ← hself b] at hroots
    rw [← hroots] at hsecond
    exact Option.some.inj (hfirst.symm.trans hsecond)
  have hbottom := Lattice.le_glb hs.grammar.lattice.hierarchy hle (hsame ▸ hle')
  rw [hglb, Hierarchy.le_bottom_iff] at hbottom
  exact type_ne_bottom_of_done hs he ha hb hrun hn (hrep.symm ▸ htype) hbottom

end Entangle

/-! ## Quick check -/

/-- An argument is a node of the graph. -/
theorem argument_lt {s : Session} (hs : s.graph.Linked) {active : Item} {n : Nat}
    {argument : NodeId} (h : s.argument? active n = some argument) : argument < s.graph.size := by
  simp only [argument?, Option.bind_eq_bind, Option.bind_eq_some_iff] at h
  obtain ⟨args, -, first, -, rest, -, list, -, last, -, hvalue⟩ := h
  exact hs.currentValue?_lt hvalue

/-- To unify into an argument is to unify two nodes, or nothing when the argument is not there. -/
theorem entangleArgument_cases {s s' : Session} (hs : s.graph.Linked) {active passive : Item}
    {n budget : Nat} {unified : Bool}
    (h : s.entangleArgument budget active passive n = some (unified, s')) :
    (∃ argument < s.graph.size, s.entangle budget argument passive.root = some (unified, s')) ∨
      unified = false ∧ s' = s := by
  unfold entangleArgument at h
  cases harg : s.argument? active n with
  | none =>
    rw [harg] at h
    cases h
    exact .inr ⟨rfl, rfl⟩
  | some argument =>
    rw [harg] at h
    exact .inl ⟨argument, argument_lt hs harg, h⟩

section Incompatible

variable {s : Session} (hs : s.Sound) (he : s.graph.Entangled)
include hs he

/-- Where the vectors of listed paths are not compatible, a path leads to types without a common
subtype. The second vector may be that of the committed structure. -/
theorem exists_clash_of_incompatible {paths : List (List FeatureId)}
    (hq : s.grammar.quickCheck = .ofPaths paths) {argument root : NodeId} (hintact : s.Intact root)
    (h : (s.quickCompatible (s.grammar.quickCheck.vector s.graph argument)
      (s.invalidate.item root)).1 = false) :
    ∃ path n m, s.current.follow? (s.graph.deref argument) path = some n ∧
      s.current.follow? (s.graph.deref root) path = some m ∧ s.current.type n ≠ .bottom ∧
      s.grammar.lattice.glb (s.current.type n) (s.current.type m) = .bottom := by
  have horder := hs.grammar.lattice.hierarchy
  obtain ⟨position, t, u, ht, hu, hne, hne', hglb⟩ :=
    QuickCheck.exists_of_compatible_eq_false hs.grammar.lattice h
  obtain ⟨path, n, hpath, hn, rfl⟩ := QuickCheck.exists_path_of_vector ht hne
  obtain ⟨path', m, hpath', hm, rfl⟩ := QuickCheck.exists_path_of_vector hu hne'
  -- a position has one path
  have heq : path = path' := by
    rw [hq] at hpath
    replace hpath' : (path', position) ∈ s.grammar.quickCheck.paths := hpath'
    rw [hq] at hpath'
    exact Option.some.inj ((QuickCheck.mem_paths_ofPaths hpath).symm.trans
      (QuickCheck.mem_paths_ofPaths hpath'))
  subst heq
  rw [QuickCheck.endOf?_eq_follow? he] at hn
  -- the other path is one of the committed structure
  obtain ⟨hvoid, hrest⟩ : s.invalidate.graph.Sound ∧ s.invalidate.graph.AtRest :=
    hs.graph.invalidate
  have hview : s.invalidate.graph.web.view = s.shape :=
    hrest.view_eq.trans (Graph.shape_invalidate s.graph)
  have htype : s.invalidate.graph.currentType m = s.shape.type m :=
    congrFun (congrArg Shape.type hview) m
  rw [QuickCheck.endOf?_eq_follow? (Graph.entangled_of_atRest hvoid hrest), hview,
    hrest.deref_eq] at hm
  rw [htype] at hglb
  obtain ⟨hfollow, hle⟩ := hintact.follow hm
  refine ⟨path, n, _, hn, hfollow, hne, ?_⟩
  rw [← Hierarchy.le_bottom_iff (h := s.hierarchy), ← hglb]
  exact Lattice.le_glb horder (Lattice.glb_le_left horder _ _)
    (horder.le_trans (Lattice.glb_le_right horder _ _) hle)

/-- An argument whose vector is not compatible is not unified, however much more than `s` the session
knows about the lattice. -/
theorem not_entangled_of_incompatible {paths : List (List FeatureId)}
    (hq : s.grammar.quickCheck = .ofPaths paths) {active : Item} {n : Nat} {root : Nat}
    (hroot : root < s.graph.size) (hintact : s.Intact root)
    (h : (s.quickCompatible (s.argumentVector active n) (s.invalidate.item root)).1 = false)
    {t t' : Session} (ht : t.Sound) (hgraph : t.graph = s.graph) (horder : t.hierarchy = s.hierarchy)
    (hspecial : t.grammar.special = s.grammar.special) {budget : Nat} :
    t.entangleArgument budget active (s.invalidate.item root) n ≠ some (true, t') := by
  intro hentangle
  have hargument : t.argument? active n = s.argument? active n := by
    rw [argument?, argument?, hgraph, hspecial]
  rw [entangleArgument, hargument] at hentangle
  cases harg : s.argument? active n with
  | none =>
    rw [harg] at hentangle
    cases hentangle
  | some argument =>
    rw [harg] at hentangle
    rw [argumentVector, harg] at h
    obtain ⟨path, k, m, hleft, hright, hne, hglb⟩ :=
      exists_clash_of_incompatible hs he hq hintact h
    rw [current, ← hgraph] at hleft hright hne hglb
    refine run_ne_done_of_clash ht (hgraph ▸ he) (hgraph ▸ argument_lt he.linked harg) (hgraph ▸ hroot)
      hleft hright hne ?_ (run_of_entangle hentangle)
    exact (Lattice.glb_congr horder _ _).trans hglb

/-- Where no prototype has features, the unification of an argument comes to an end. -/
theorem exists_budget_entangleArgument (hproto : ∀ type, s.grammar.featuredPrototype? type = none)
    (active passive : Item) (hroot : passive.root < s.graph.size) (n : Nat) :
    ∃ enough unified t, ∀ budget ≥ enough,
      s.entangleArgument budget active passive n = some (unified, t) := by
  cases harg : s.argument? active n with
  | none => exact ⟨0, false, s, fun budget _ => by rw [entangleArgument, harg]⟩
  | some argument =>
    obtain ⟨fuel, hfuel⟩ := exists_fuel_unifyTurn hs he hproto (argument_lt he.linked harg) hroot
    obtain ⟨unified, t, h⟩ := entangle_of_ne_spent hfuel
    exact ⟨fuel, unified, t, fun budget hbudget => by
      rw [entangleArgument, harg]
      exact h budget hbudget⟩

/-- A passive item that quick check turns away does not unify with the argument, whatever has come
about in the episode, as long as the committed structure of the item is part of it: a unification
that comes to an end fails, before the check as well as after it. Where no prototype has features it
does come to an end. -/
theorem fails_of_incompatible {paths : List (List FeatureId)}
    (hq : s.grammar.quickCheck = .ofPaths paths) {active : Item} {n : Nat} {root : Nat}
    (hroot : root < s.graph.size) (hintact : s.Intact root)
    (h : (s.quickCompatible (s.argumentVector active n) (s.invalidate.item root)).1 = false)
    {t : Session}
    (ht : t = s ∨ t = (s.quickCompatible (s.argumentVector active n) (s.invalidate.item root)).2) :
    (∀ budget, (∀ unified t', t.entangleArgument budget active (s.invalidate.item root) n =
        some (unified, t') → unified = false) ∧
      ∀ r answer t', t.unifyArgument budget active (s.invalidate.item root) n r =
        some (answer, t') → answer = none) ∧
    ((∀ type, s.grammar.featuredPrototype? type = none) → ∃ enough t', ∀ budget ≥ enough,
      t.entangleArgument budget active (s.invalidate.item root) n = some (false, t') ∧
      ∀ r, t.unifyArgument budget active (s.invalidate.item root) n r = some (none, t')) := by
  -- the check changes nothing but what is known about the lattice
  obtain ⟨hts, hgraph, horder, hspecial, hproto⟩ : t.Sound ∧ t.graph = s.graph ∧
      t.hierarchy = s.hierarchy ∧ t.grammar.special = s.grammar.special ∧
      ∀ type, t.grammar.featuredPrototype? type = s.grammar.featuredPrototype? type := by
    rcases ht with rfl | rfl
    · exact ⟨hs, rfl, rfl, rfl, fun _ => rfl⟩
    · obtain ⟨hsound, horder⟩ := QuickCheck.sound_compatible (s.argumentVector active n)
        (s.invalidate.item root).vector hs.grammar.lattice
      exact ⟨⟨⟨hsound, hs.grammar.prototypes, hs.grammar.root_lt, hs.grammar.possible⟩, hs.graph⟩,
        rfl, horder, rfl, fun _ => rfl⟩
  have hfails : ∀ budget unified t', t.entangleArgument budget active (s.invalidate.item root) n =
      some (unified, t') → unified = false := by
    intro budget unified t' hentangle
    cases unified with
    | false => rfl
    | true =>
      exact absurd hentangle
        (not_entangled_of_incompatible hs he hq hroot hintact h hts hgraph horder hspecial)
  refine ⟨fun budget => ⟨hfails budget, fun r answer t' hunify => ?_⟩, fun hnone => ?_⟩
  · obtain ⟨⟨unified, t₁⟩, hentangle, heq⟩ := Option.map_eq_some_iff.1 hunify
    rw [hfails budget unified t₁ hentangle] at heq
    cases heq
    rfl
  · obtain ⟨enough, unified, t', hends⟩ := exists_budget_entangleArgument hts (hgraph ▸ he)
      (fun type => (hproto type).trans (hnone type)) active (s.invalidate.item root)
      (hgraph ▸ hroot) n
    obtain rfl := hfails enough unified t' (hends enough (Nat.le_refl _))
    refine ⟨enough, t', fun budget hbudget => ⟨hends budget hbudget, fun r => ?_⟩⟩
    rw [unifyArgument, hends budget hbudget]
    rfl

end Incompatible

/-! ### A rule -/

/-- A grammar with argument lists, and with the given paths as the positions of vectors. -/
def listed (prototypes : List (TypeId × List Edge)) (roots : List (TypeId × NodeId))
    (paths : List (List FeatureId)) : Grammar :=
  { Sample.grammar prototypes roots with
    features := .ofList ["F", "ARGS", "FIRST", "REST", "G"]
    quickCheck := .ofPaths paths
    special := ⟨some 1, some 2, some 3, none, none, none, none⟩ }

theorem sound_listed {prototypes : List (TypeId × List Edge)} {roots : List (TypeId × NodeId)}
    (hg : (Sample.grammar prototypes roots).Sound) (paths : List (List FeatureId)) :
    (listed prototypes roots paths).Sound :=
  ⟨hg.lattice, hg.prototypes, hg.root_lt, hg.possible⟩

/-- An item with one argument, whose feature has a value of type 1. Node 6 has an atom in its
place, and node 4 any value. -/
def rule : Session :=
  Sample.session (listed [] [] [[0]]) [(.top, [⟨1, 1⟩]), (.top, [⟨2, 2⟩]), (.of 1, [⟨0, 3⟩]),
    (.of 1, []), (.of 1, [⟨0, 5⟩]), (.top, []), (.of 1, [⟨0, 7⟩]), (.of 5, [])]

theorem sound_rule : rule.Sound ∧ rule.AtRest :=
  Sample.sound_session (sound_listed (Sample.sound_grammar (by decide) (by decide) (by decide)) _)
    (by decide)

theorem featuredPrototype_listed (paths : List (List FeatureId)) (type : TypeId) :
    (listed [] [] paths).featuredPrototype? type = none := by
  refine Option.eq_none_iff_forall_ne_some.2 fun root h => ?_
  have hmem : (type, root) ∈ (Sample.grammar [] []).roots.toList := Sample.mem_roots h
  have hnil : (Sample.grammar [] []).roots.toList = [] := by decide
  rw [hnil] at hmem
  cases hmem

/-- Node 6 is turned away while it is unified with node 4 in an open episode. -/
theorem fails_of_incompatible_rule : ∃ s, rule.entangle 20 4 6 = some (true, s) ∧
    (s.quickCompatible (s.argumentVector (rule.item 0) 0) (s.invalidate.item 6)).1 = false ∧
    (∀ budget, (∀ unified t', s.entangleArgument budget (rule.item 0) (s.invalidate.item 6) 0 =
        some (unified, t') → unified = false) ∧
      ∀ r answer t', s.unifyArgument budget (rule.item 0) (s.invalidate.item 6) 0 r =
        some (answer, t') → answer = none) ∧
    ∃ enough t', ∀ budget ≥ enough,
      s.entangleArgument budget (rule.item 0) (s.invalidate.item 6) 0 = some (false, t') ∧
      ∀ r, s.unifyArgument budget (rule.item 0) (s.invalidate.item 6) 0 r = some (none, t') := by
  have hanswer : (rule.entangle 20 4 6).map (fun p => (p.1, p.2.grammar.quickCheck,
      (p.2.quickCompatible (p.2.argumentVector (rule.item 0) 0) (p.2.invalidate.item 6)).1)) =
        some (true, .ofPaths [[0]], false) := by
    decide +kernel
  obtain ⟨⟨unified, s⟩, h, hs⟩ := Option.map_eq_some_iff.1 hanswer
  simp only [Prod.mk.injEq] at hs
  obtain ⟨rfl, hpaths, hcheck⟩ := hs
  have he := Graph.entangled_of_atRest sound_rule.1.graph sound_rule.2
  obtain ⟨hsound, hent, hlater, hintact⟩ :=
    intact_entangle sound_rule.1 he (by decide) (by decide) h
  have hlt : 6 < rule.graph.size := by decide
  obtain ⟨hfails, hends⟩ := fails_of_incompatible hsound hent hpaths
    (Nat.lt_of_lt_of_le hlt hlater.graph.size_le) (hintact hlt (intact_of_atRest sound_rule.2 6))
    hcheck (.inl rfl)
  exact ⟨s, h, hcheck, hfails, hends fun type =>
    (hlater.grammar.featuredPrototype? type).trans (featuredPrototype_listed _ type)⟩

/-- Completion renews itself below the argument: the value of its first feature and that of node 6
are of type 3 together. The values of the other feature clash. -/
def renewing : Session :=
  Sample.session (listed [(.of 3, [⟨0, 1⟩]), (.of 1, [⟨0, 2⟩]), (.of 2, [])] [(.of 3, 0)] [[4]])
    [(.top, [⟨1, 1⟩]), (.top, [⟨2, 2⟩]), (.top, [⟨0, 3⟩, ⟨4, 4⟩]), (.of 1, [⟨0, 5⟩]), (.of 1, []),
      (.of 2, []), (.top, [⟨0, 7⟩, ⟨4, 8⟩]), (.of 2, []), (.of 5, [])]

theorem sound_renewing : renewing.Sound ∧ renewing.AtRest :=
  Sample.sound_session (sound_listed (Sample.sound_grammar (by decide) (by decide) (by decide)) _)
    (by decide)

theorem root_of_renewing {t : TypeId} {root : NodeId}
    (h : renewing.grammar.featuredPrototype? t = some root) : t = .of 3 ∧ root = 0 := by
  have hmem := Sample.mem_roots h
  have hlist : renewing.grammar.roots.toList = [(.of 3, 0)] := by decide
  simpa [hlist] using hmem

theorem renews_renewing : renewing.grammar.Renews (.of 3) 0 0 1 2 where
  possible := by decide
  prototype := by decide
  value := by decide
  value_value := by decide
  glb := by decide +kernel
  completed := by
    intro n f m t root _ hm _ hroot
    obtain ⟨-, rfl⟩ := root_of_renewing hroot
    have hg := sound_renewing.1.grammar
    have hrest : renewing.grammar.prototypes.AtRest := (Graph.sound_ofNodes (by decide)).2
    have hmaps := (Graph.entangled_of_atRest hg.prototypes hrest).maps_chain
      hg.lattice.hierarchy (x := 0) (t := .of 3) (f := 0) [0, 1, 2] (by decide) id
      (by decide +kernel) n
    rw [hrest.view_eq] at hmaps
    exact ⟨_, rfl, hmaps⟩

theorem wellformedPrototypes_renewing : renewing.grammar.WellformedPrototypes :=
  Grammar.wellformedPrototypes_of_forall sound_renewing.1.grammar [0, 1, 2] (by decide) (by decide)
    (by decide)

/-- The same session once the argument and node 6 are one class, whose features are to be handed
over. -/
def renewingMerged : Session :=
  renewing.mapGraph fun g => (g.setCurrentType 2 .top).setForward 6 2

/-- Below the argument, prototypes come in without end. -/
theorem endless_below_renewing : Agenda.Endless unifyTurn renewingMerged [.pair 3 7] := by
  have hstart : Unifying renewing renewing [.pair 2 6] :=
    unifying_start sound_renewing.1
      (Graph.entangled_of_atRest sound_renewing.1.graph sound_renewing.2) (by decide) (by decide)
  have hturn : renewing.unifyTurn (.pair 2 6) =
      .next renewingMerged [.merge 2 6 2 [⟨0, 7⟩, ⟨4, 8⟩]] := rfl
  have hu := (unifyTurn_next hstart hturn).2
  have he := hu.graph
  have hl := hu.grammar.lattice.hierarchy
  have hwell : ∀ x ∈ [3, 5, 7], ∀ {n}, renewingMerged.current.Reach x n →
      renewingMerged.current.Wellformed renewingMerged.grammar n := by
    intro x hx n hn f m root _ hroot
    have hmem := he.mem_of_reach [3, 5, 7] hx (by decide) hn
    have htype : ∀ n ∈ [3, 5, 7], renewingMerged.graph.currentType n ≠ .of 3 := by decide
    exact absurd (root_of_renewing hroot).1 (htype n hmem)
  have hmaps : ∀ x ∈ [3, 5, 7], renewingMerged.current.Maps renewingMerged.hierarchy x
      (.chain (.of 3) 0) (0 + if · = 5 then 1 else 0) := fun x hx =>
    he.maps_chain hl [3, 5, 7] hx (if · = 5 then 1 else 0) (by decide +kernel) 0
  have hleft : renewingMerged.graph.deref 3 = 3 := by decide
  have hright : renewingMerged.graph.deref 7 = 7 := by decide
  refine endless_of_renews ⟨hu.grammar, he.sound⟩ he renews_renewing wellformedPrototypes_renewing
    (by decide) (by decide) (hleft ▸ hwell 3 (by decide)) (hright ▸ hwell 7 (by decide))
    (hleft ▸ hmaps 3 (by decide)) (hright ▸ hmaps 7 (by decide)) (by decide) (by decide)
    (by decide +kernel) (n := 5) (by decide) ?_
  exact (Lattice.glb_eq_right_iff hl).1 (by decide +kernel)

/-- The argument is never unified with node 6. -/
theorem endless_renewing : Agenda.Endless unifyTurn renewing [.pair 2 6] := by
  have hmerge : renewing.unifyTurn (.pair 2 6) =
      .next renewingMerged [.merge 2 6 2 [⟨0, 7⟩, ⟨4, 8⟩]] := rfl
  have hvalue : renewingMerged.unifyTurn (.merge 2 6 2 [⟨0, 7⟩, ⟨4, 8⟩]) =
      .next renewingMerged [.pair 3 7, .merge 2 6 2 [⟨4, 8⟩]] := rfl
  exact Agenda.endless_of_next hmerge (Agenda.endless_of_next hvalue
    (endless_below_renewing.append _))

/-- Neither condition can be left out. Where committed structure is taken away while it is unified
with the item's, quick check turns away what unifies: the item has lost the value that its vector
still tells of. And where prototypes come in without end, there is no answer at all. -/
theorem not_fails_of_incompatible :
    (∃ s, rule.Sound ∧ rule.AtRest ∧
      (rule.entangle 20 4 6).map (fun p => (p.1, p.2.mapGraph (·.dropEdge 4 0))) = some (true, s) ∧
      s.grammar.quickCheck = .ofPaths [[0]] ∧
      (s.quickCompatible (s.argumentVector (rule.item 0) 0) (s.invalidate.item 6)).1 = false ∧
      ((s.entangleArgument 20 (rule.item 0) (s.invalidate.item 6) 0).map fun p => p.1) =
        some true ∧
      ((s.unifyArgument 20 (rule.item 0) (s.invalidate.item 6) 0 unrestricted).map
        fun p => p.1.isSome) = some true) ∧
    renewing.Sound ∧ renewing.AtRest ∧ renewing.grammar.quickCheck = .ofPaths [[4]] ∧
      (renewing.quickCompatible (renewing.argumentVector (renewing.item 0) 0)
        (renewing.item 6)).1 = false ∧
      ∀ budget, renewing.entangleArgument budget (renewing.item 0) (renewing.item 6) 0 = none ∧
        renewing.unifyArgument budget (renewing.item 0) (renewing.item 6) 0 unrestricted = none := by
  refine ⟨?_, sound_renewing.1, sound_renewing.2, rfl, by decide +kernel, fun budget => ?_⟩
  · have hanswer : ((rule.entangle 20 4 6).map
        (fun p => (p.1, p.2.mapGraph (·.dropEdge 4 0)))).map (fun p => (p.1, p.2.grammar.quickCheck,
          (p.2.quickCompatible (p.2.argumentVector (rule.item 0) 0) (p.2.invalidate.item 6)).1,
          (p.2.entangleArgument 20 (rule.item 0) (p.2.invalidate.item 6) 0).map fun p => p.1,
          (p.2.unifyArgument 20 (rule.item 0) (p.2.invalidate.item 6) 0 unrestricted).map
            fun p => p.1.isSome)) =
          some (true, .ofPaths [[0]], false, some true, some true) := by
      decide +kernel
    obtain ⟨⟨unified, s⟩, h, hs⟩ := Option.map_eq_some_iff.1 hanswer
    simp only [Prod.mk.injEq] at hs
    obtain ⟨rfl, hpaths, hcheck, hentangle, hunify⟩ := hs
    exact ⟨s, sound_rule.1, sound_rule.2, h, hpaths, hcheck, hentangle, hunify⟩
  · have hargument : renewing.argument? (renewing.item 0) 0 = some 2 := by decide
    have hnone : renewing.entangleArgument budget (renewing.item 0) (renewing.item 6) 0 = none := by
      rw [entangleArgument, hargument]
      exact entangle_of_endless endless_renewing budget
    refine ⟨hnone, ?_⟩
    rw [unifyArgument, hnone]
    rfl

end Session

end FeatureLogic
