import FeatureLogic.Proofs.Unify.Outcome

/-!
Unifications that never end. A prototype may ask for a value that needs the same prototype once it is
unified with what is there already; that value then has a value that needs it again, and so on.
-/

open Relation

namespace FeatureLogic

/-- Nodes of one type, each with the next one as the value of a feature. -/
def Shape.chain (t : TypeId) (f : FeatureId) : Shape :=
  ⟨fun _ => t, fun n g => if g = f then some (n + 1) else none⟩

theorem Shape.chain_value (t : TypeId) (f : FeatureId) (n : NodeId) :
    (chain t f).value? n f = some (n + 1) := if_pos rfl

/-- Classes whose depth grows by one with the feature map to the chain, from any node of it on. -/
theorem Graph.Entangled.maps_chain {g : Graph} (hg : g.Entangled) {l : Lattice}
    (hl : l.hierarchy.Sound) {t : TypeId} {f : FeatureId} {x : NodeId} (below : List NodeId)
    (hx : x ∈ below) (depth : NodeId → Nat)
    (h : ∀ n ∈ below, l.glb (g.currentType n) t = t ∧ ∀ e ∈ g.currentEdges n, e.feature = f ∧
      g.deref e.target ∈ below ∧ depth (g.deref e.target) = depth n + 1) (i : Nat) :
    g.web.view.Maps l.hierarchy x (.chain t f) (i + depth ·) := by
  have hmem : ∀ {n}, g.web.view.Reach x n → n ∈ below :=
    fun hn => hg.mem_of_reach below hx (fun n hn e he => ((h n hn).2 e he).2.1) hn
  refine ⟨fun hn => (Lattice.glb_eq_right_iff hl).1 (h _ (hmem hn)).1, fun {n f' m} hn hf => ?_⟩
  obtain ⟨e, he, rfl, rfl⟩ := hg.view_value_eq_some_iff.1 hf
  obtain ⟨rfl, -, hdepth⟩ := (h _ (hmem hn)).2 e he
  rw [Shape.chain_value, hdepth]
  rfl

/-- Completion with the prototype of `t` starts itself again. In the prototype the value of `f` is
`first`, the value of `f` there is `second`, and their types have `t` in common. A node of the type of
`second` that becomes the value of `f` of a node of type `t` is of type `t` itself then, and gets a
value of the type of `second`. An endless chain of nodes of type `t` meets all prototypes. -/
structure Grammar.Renews (g : Grammar) (t : TypeId) (f : FeatureId) (root first second : NodeId) :
    Prop where
  possible : t ≠ .bottom
  prototype : g.featuredPrototype? t = some root
  value : g.prototypes.shape.value? root f = some first
  value_value : g.prototypes.shape.value? first f = some second
  glb : g.lattice.glb (g.prototypes.shape.type first) (g.prototypes.shape.type second) = t
  completed : (Shape.chain t f).Completed g 0

/-- A node of type `t` whose value of `f` is of the type of `second`, so that it is of type `t`, too,
once the node has met the prototype. -/
def Shape.Renewed (S : Shape) (g : Grammar) (t : TypeId) (f : FeatureId) (second n : NodeId) :
    Prop :=
  S.type n = t ∧ ∃ m, S.value? n f = some m ∧
    g.hierarchy.Le (S.type m) (g.prototypes.shape.type second)

section Renews

variable {g : Grammar} {t : TypeId} {f : FeatureId} {root first second : NodeId} {S : Shape}
  {x n m : NodeId}

/-- The value of such a node is such a node. -/
theorem Grammar.Renews.renewed_value (h : g.Renews t f root first second) (hg : g.Sound)
    {μ : NodeId → NodeId} (hμ : S.Maps g.hierarchy x (.chain t f) μ) (hn : S.Reach x n)
    (hwell : S.Wellformed g n) (hrenewed : S.Renewed g t f second n) :
    ∃ m, S.value? n f = some m ∧ S.Renewed g t f second m := by
  obtain ⟨htype, m, hm, hle⟩ := hrenewed
  obtain ⟨ν, rfl, hν⟩ := hwell hm (htype ▸ h.prototype)
  have hfirst : g.prototypes.shape.Reach root first := .single ⟨f, h.value⟩
  have hvalue := hν.value ReflTransGen.refl h.value
  obtain rfl : m = ν first := Option.some.inj (hm.symm.trans hvalue)
  refine ⟨ν first, hm, ?_, ν second, hν.value hfirst h.value_value, ?_⟩
  · -- the type is below both types of the prototype, and above that of the chain
    have hbelow := Lattice.le_glb hg.lattice.hierarchy (hν.type_le hfirst) hle
    rw [h.glb] at hbelow
    exact hg.lattice.hierarchy.le_antisymm hbelow (hμ.type_le (hn.value hm))
  · exact hν.type_le (hfirst.value h.value_value)

/-- Below such a node there is one for every node of the chain. -/
theorem Grammar.Renews.exists_below (h : g.Renews t f root first second) (hg : g.Sound)
    {μ : NodeId → NodeId} (hμ : S.Maps g.hierarchy x (.chain t f) μ) (hroot : μ x = 0)
    (hwell : ∀ n, S.Reach x n → S.Wellformed g n) (hrenewed : S.Renewed g t f second x) (i : Nat) :
    ∃ n, S.Reach x n ∧ μ n = i ∧ S.Renewed g t f second n := by
  induction i with
  | zero => exact ⟨x, ReflTransGen.refl, hroot, hrenewed⟩
  | succ i ih =>
    obtain ⟨n, hn, rfl, hnext⟩ := ih
    obtain ⟨m, hm, hnext⟩ := h.renewed_value hg hμ hn (hwell n hn) hnext
    have hvalue := (Shape.chain_value t f (μ n)).symm.trans (hμ.value hn hm)
    exact ⟨m, hn.value hm, (Option.some.inj hvalue).symm, hnext⟩

/-- Such a structure is not finite. -/
theorem Grammar.Renews.not_finite (h : g.Renews t f root first second) (hg : g.Sound)
    (hsub : S.Subsumes g.hierarchy x (.chain t f) 0)
    (hwell : ∀ n, S.Reach x n → S.Wellformed g n) (hrenewed : S.Renewed g t f second x)
    (size : Nat) : ¬ ∀ n, S.Reach x n → n < size := by
  intro hfinite
  obtain ⟨μ, hroot, hμ⟩ := hsub
  have himage : Finset.range (size + 1) ⊆ (Finset.range size).image μ := by
    intro i _
    obtain ⟨n, hn, rfl, -⟩ := h.exists_below hg hμ hroot hwell hrenewed i
    exact Finset.mem_image_of_mem μ (Finset.mem_range.2 (hfinite n hn))
  have hcard := (Finset.card_le_card himage).trans Finset.card_image_le
  rw [Finset.card_range, Finset.card_range] at hcard
  exact Nat.not_succ_le_self size hcard

end Renews

namespace Session

/-- The unification of two nodes that have the type `t` in common does not end if a value of one of
them is of the type of `second`: there is always a prototype left to meet, and never a clash. -/
theorem endless_of_renews {s : Session} (hs : s.Sound) (he : s.graph.Entangled) {t : TypeId}
    {f : FeatureId} {root first second : NodeId} (h : s.grammar.Renews t f root first second)
    (hproto : s.grammar.WellformedPrototypes) {a b : Nat} (ha : a < s.graph.size)
    (hb : b < s.graph.size)
    (hleft : ∀ {n}, s.current.Reach (s.graph.deref a) n → s.current.Wellformed s.grammar n)
    (hright : ∀ {n}, s.current.Reach (s.graph.deref b) n → s.current.Wellformed s.grammar n)
    {μ : NodeId → NodeId}
    (hμ : s.current.Maps s.hierarchy (s.graph.deref a) (.chain t f) μ)
    (hν : s.current.Maps s.hierarchy (s.graph.deref b) (.chain t f) μ)
    (hzero : μ (s.graph.deref a) = 0) (hzero' : μ (s.graph.deref b) = 0)
    (hglb : s.grammar.lattice.glb (s.current.type (s.graph.deref a))
      (s.current.type (s.graph.deref b)) = t)
    {n : NodeId} (hvalue : s.current.value? (s.graph.deref a) f = some n)
    (hle : s.hierarchy.Le (s.current.type n) (s.grammar.prototypes.shape.type second)) :
    Agenda.Endless unifyTurn s [.pair a b] := by
  have heq := hzero.trans hzero'.symm
  -- an end would have ever more nodes below `a`; a clash is kept away by the map to the chain
  refine Agenda.endless_of_ne (fun fuel s₁ hrun => ?_) fun fuel s₁ answer waiting => ?_
  · have hu := unifying_of_done hs he ha hb hrun
    have hsub := subsumes_of_done hs he ha hb h.completed hμ hν hzero heq hrun
    have hmaps := maps_of_done hs he ha hb hrun ha
    have hself := rep_rep_of_done hs he ha hb hrun
    have hroots := rep_of_done hs he ha hb hrun
    have hmaps' := maps_of_done hs he ha hb hrun hb
    -- the class of both nodes has the type, and the value of `f` has kept its own
    have htype : s₁.graph.web.view.type (s₁.graph.web.rep a) = t := by
      have htop := hmaps.type_le ReflTransGen.refl
      have htop' := hmaps'.type_le ReflTransGen.refl
      rw [hself] at htop htop'
      rw [← hroots] at htop'
      have hbelow := Lattice.le_glb hs.grammar.lattice.hierarchy htop htop'
      obtain ⟨κ, hκ, hmap⟩ := id hsub
      exact hs.grammar.lattice.hierarchy.le_antisymm (hglb ▸ hbelow)
        (hmap.type_le ReflTransGen.refl)
    have hkept := hmaps.value ReflTransGen.refl hvalue
    rw [hself] at hkept
    have hrenewed : s₁.graph.web.view.Renewed s.grammar t f second (s₁.graph.web.rep a) :=
      ⟨htype, _, hkept, hs.grammar.lattice.hierarchy.le_trans
        (hmaps.type_le (Shape.Reach.value ReflTransGen.refl hvalue)) hle⟩
    refine h.not_finite hs.grammar hsub (fun m hm => ?_) hrenewed s₁.graph.size fun m hm => ?_
    · exact wellformed_of_done hs he ha hb hproto hleft hright hrun hm
    · exact (hu.graph.web_sound.reach_lt
        (Nat.lt_of_lt_of_le ha hu.extends_start.size_le) hm).1
  · exact run_ne_halted hs he ha hb h.completed hμ hν hzero heq (fun _ => h.possible) answer waiting

end Session

end FeatureLogic
