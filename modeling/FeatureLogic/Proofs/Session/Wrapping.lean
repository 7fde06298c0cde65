import FeatureLogic.Session.Item
import FeatureLogic.Proofs.Session.QuickCheck
import FeatureLogic.Proofs.Unify.Alike
import FeatureLogic.Proofs.Unify.Outcome

/-!
To unify into an argument is to unify with a wrapper, a chain of nodes of the universal type along the
path to the argument. The unification with the wrapper goes down the path, absorbs the wrapper node
by node and comes to the argument with nothing noted that makes a difference; from there on both are
in step.
-/

namespace FeatureLogic

namespace Graph

/-- A wrapper of `root`: the nodes along the path are of the universal type and have no other
edges. -/
inductive Wraps (g : Graph) (root : NodeId) : List FeatureId → List NodeId → NodeId → Prop
  | root : Wraps g root [] [] root
  | cons {f : FeatureId} {path : List FeatureId} {nodes : List NodeId} {n next : NodeId}
    (htype : g.type n = .top) (hedges : g.edges n = [⟨f, next⟩]) (hnew : n ∉ nodes)
    (h : Wraps g root path nodes next) : Wraps g root (f :: path) (n :: nodes) n

theorem Wraps.lt {g : Graph} {root w : NodeId} {path : List FeatureId} {nodes : List NodeId}
    (h : g.Wraps root path nodes w) : ∀ v ∈ nodes, v < g.size := by
  induction h with
  | root => simp
  | cons _ hedges _ _ ih =>
    refine List.forall_mem_cons.2 ⟨Nat.lt_of_not_le fun hge => ?_, ih⟩
    rw [edges_of_le hge] at hedges
    cases hedges

theorem Wraps.mem_or_eq {g : Graph} {root w : NodeId} {path : List FeatureId} {nodes : List NodeId}
    (h : g.Wraps root path nodes w) : w ∈ nodes ∨ w = root := by
  cases h with
  | root => exact .inr rfl
  | cons => exact .inl (List.mem_cons_self ..)

/-- A wrapper is that of another graph, too, that has the same structure. -/
theorem Wraps.congr {g g' : Graph} (htype : ∀ n, g'.type n = g.type n)
    (hedges : ∀ n, g'.edges n = g.edges n) {root w : NodeId} {path : List FeatureId}
    {nodes : List NodeId} (h : g.Wraps root path nodes w) : g'.Wraps root path nodes w := by
  induction h with
  | root => exact .root
  | cons htop honly hnew _ ih =>
    exact .cons ((htype _).trans htop) ((hedges _).trans honly) hnew ih

/-- Nodes beside a closed list that has a root are not below it. -/
theorem not_below_of_closed {g : Graph} {root : NodeId} {below nodes : List NodeId}
    (h : ∀ n ∈ below, ∀ e ∈ g.edges n, e.target ∈ below) (hroot : root ∈ below)
    (hnodes : ∀ v ∈ nodes, v ∉ below) : ∀ v ∈ nodes, ¬ g.Below root v :=
  fun v hv hbelow => hnodes v hv (mem_of_below h hroot hbelow)

/-- No node that the path leads on from is of the type `bottom`; the one at its end may be. -/
def PossibleAlong (g : Graph) : NodeId → List FeatureId → Prop
  | _, [] => True
  | n, f :: path => g.type n ≠ .bottom ∧ ∀ m ∈ g.value? n f, PossibleAlong g m path

instance decidablePossibleAlong (g : Graph) :
    ∀ (n : NodeId) (path : List FeatureId), Decidable (g.PossibleAlong n path)
  | _, [] => isTrue trivial
  | n, f :: path =>
    have : DecidablePred (g.PossibleAlong · path) := (decidablePossibleAlong g · path)
    inferInstanceAs (Decidable (g.type n ≠ .bottom ∧ ∀ m ∈ g.value? n f, g.PossibleAlong m path))

/-- A node of which nothing is noted and which stands for no node of the other graph. -/
structure Spare (ρ : Correspondence) (g : Graph) (v : NodeId) : Prop where
  lt : v < g.size
  forward : g.forward? v = none
  type : g.currentType v = g.type v
  pending : g.pending v = []
  apart : ∀ n, ¬ ρ n v

/-! ## What is read of nodes that correspond to committed ones -/

section AtRest

variable {ρ : Correspondence} {g k : Graph} (h : Alike ρ g k) (hr : g.AtRest) {n m : NodeId}
  (hn : ρ n m)
include h hr hn

theorem Alike.forward?_of_atRest : k.forward? m = none := by
  have hsame := h.forward? hn
  rw [hr.forward_eq] at hsame
  generalize k.forward? m = pointer at hsame
  cases hsame
  rfl

theorem Alike.exists_currentEdge? {f : FeatureId} {next : NodeId}
    (hvalue : g.value? n f = some next) : ∃ next', ρ next next' ∧ k.currentEdge? m f = some next' := by
  have hsame := h.currentEdge? hn f
  rw [hr.currentEdge_eq, hvalue] at hsame
  generalize k.currentEdge? m f = target at hsame
  cases hsame with
  | some hnext => exact ⟨_, hnext, rfl⟩

end AtRest

end Graph

/-- The path from an item to an argument. -/
def SpecialFeatures.argumentPath? (special : SpecialFeatures) (n : Nat) :
    Option (List FeatureId) := do
  let args ← special.args
  let first ← special.first
  let rest ← special.rest
  some (args :: (List.replicate n rest ++ [first]))

namespace Session

/-! ## Arguments -/

theorem restOf?_eq_follow {g : Graph} (hr : g.AtRest) (rest : FeatureId) (n : Nat) (list : NodeId) :
    restOf? g rest n list = g.follow? list (List.replicate n rest) := by
  induction n generalizing list with
  | zero => rfl
  | succ n ih =>
    rw [restOf?, hr.currentValue?_eq, List.replicate_succ, Graph.follow?, List.foldlM_cons]
    cases g.value? list rest with
    | none => rfl
    | some next => exact ih next

/-- When no episode is open an argument is the end of its path. -/
theorem argument?_eq_follow {s : Session} (hr : s.AtRest) (active : Item) (n : Nat) :
    s.argument? active n =
      (s.grammar.special.argumentPath? n).bind (s.graph.follow? active.root) := by
  simp only [argument?, SpecialFeatures.argumentPath?, restOf?_eq_follow hr, Option.bind_eq_bind,
    Graph.AtRest.currentValue?_eq hr]
  cases s.grammar.special.args with
  | none => rfl
  | some args =>
    cases s.grammar.special.first with
    | none => rfl
    | some first =>
      cases s.grammar.special.rest with
      | none => rfl
      | some rest => simp [Graph.follow?]

/-! ## Down the path -/

/-- Of two nodes with edges the second is absorbed. -/
theorem absorb_of_hasCurrentEdges (s : Session) {first second : NodeId}
    (hfirst : s.graph.hasCurrentEdges first = true)
    (hsecond : s.graph.hasCurrentEdges second = true) (left right : NodeId) (type : TypeId) :
    s.absorb left right first second type = .next (s.mapGraph (·.setForward second first))
      [.merge left right first (s.graph.currentEdges second)] := by
  simp only [absorb, hfirst, hsecond]
  rfl

/-- The session after `w`, which has nothing to tell, was absorbed by `n`. -/
def unwrapped (s : Session) (n w : NodeId) : Session :=
  (s.asked n w).mapGraph fun g => (g.setCurrentType n (g.currentType n)).setForward w n

section Notes

variable (s : Session) (n w m : NodeId)

theorem graph_unwrapped : (s.unwrapped n w).graph =
    (s.graph.setCurrentType n (s.graph.currentType n)).setForward w n := rfl

theorem type_unwrapped : (s.unwrapped n w).graph.type m = s.graph.type m := by
  rw [graph_unwrapped, Graph.setForward, Graph.type_note, Graph.setCurrentType, Graph.type_note]

theorem edges_unwrapped : (s.unwrapped n w).graph.edges m = s.graph.edges m := by
  rw [graph_unwrapped, Graph.setForward, Graph.edges_note, Graph.setCurrentType, Graph.edges_note]

theorem currentEdge?_unwrapped (f : FeatureId) :
    (s.unwrapped n w).graph.currentEdge? m f = s.graph.currentEdge? m f := by
  rw [graph_unwrapped, Graph.currentEdge?_setForward, Graph.currentEdge?_setCurrentType]

variable {s n w m}

theorem forward?_unwrapped (hw : w < s.graph.size) (hne : w ≠ m) :
    (s.unwrapped n w).graph.forward? m = s.graph.forward? m := by
  rw [graph_unwrapped, Graph.forward?_setForward, if_neg hne, Graph.forward?_setCurrentType]
  rwa [Graph.size_setCurrentType]

/-- The other nodes of the wrapper are as they were. -/
theorem spare_unwrapped {ρ : Correspondence} {k : NodeId} (hn : ρ k n)
    (hlt : n < s.graph.size) (hw : w < s.graph.size) (hm : s.graph.Spare ρ m) (hne : w ≠ m) :
    (s.unwrapped n w).graph.Spare ρ m where
  lt := by
    rw [graph_unwrapped, Graph.size_setForward, Graph.size_setCurrentType]
    exact hm.lt
  forward := (forward?_unwrapped hw hne).trans hm.forward
  type := by
    have hnm : n ≠ m := by
      rintro rfl
      exact hm.apart k hn
    rw [type_unwrapped, ← hm.type, graph_unwrapped, Graph.currentType_setForward,
      Graph.currentType_setCurrentType _ hlt, if_neg hnm]
  pending := by
    rw [graph_unwrapped, Graph.pending_setForward, Graph.pending_setCurrentType, hm.pending]
  apart := hm.apart

end Notes

section Step

variable {s : Session} {n w next v : Nat} {f : FeatureId} (hn : s.graph.forward? n = none)
  (hw : s.graph.forward? w = none) (hne : n ≠ w)
  (hvalue : s.graph.currentEdge? n f = some next)
include hn hne hvalue

include hw in
/-- A node of the wrapper is absorbed, as it has no type and no feature of its own. -/
theorem unifyTurn_wrapper (hs : s.grammar.Sound) (htype : s.graph.currentType n ≠ .bottom)
    (htop : s.graph.currentType w = .top) (hedges : s.graph.edges w = [⟨f, v⟩])
    (hpending : s.graph.pending w = []) :
    unifyTurn s (.pair n w) = .next (s.unwrapped n w) [.merge n w n [⟨f, v⟩]] := by
  have hglb : s.grammar.lattice.glb (s.graph.currentType n) (s.graph.currentType w) =
      s.graph.currentType n := by
    rw [htop, Lattice.glb_comm]
    exact (Lattice.glb_eq_right_iff hs.lattice.hierarchy).2 Hierarchy.le_top
  have hfirst : (s.graph.setCurrentType n (s.graph.currentType n)).hasCurrentEdges n = true := by
    rw [Graph.hasCurrentEdges_setCurrentType]
    exact Graph.hasCurrentEdges_of_currentEdge? hvalue
  have hsecond : (s.graph.setCurrentType n (s.graph.currentType n)).hasCurrentEdges w = true := by
    rw [Graph.hasCurrentEdges_setCurrentType]
    simp [Graph.hasCurrentEdges, hedges]
  have hincoming : (s.graph.setCurrentType n (s.graph.currentType n)).currentEdges w =
      [⟨f, v⟩] := by
    rw [Graph.currentEdges_setCurrentType, Graph.currentEdges, hpending, hedges]
  show s.unifyPair n w = _
  rw [unifyPair_of_ne (Graph.deref_of_forward_none hn).symm (Graph.deref_of_forward_none hw).symm
    ((s.common_eq_glb hs n w).trans hglb).symm rfl rfl hne, if_neg (by simpa using htype)]
  have hneeded : needsCompletion (s.graph.currentType n) (s.graph.currentType n)
      (s.graph.currentType w)
      ((s.graph.setCurrentType n (s.graph.currentType n)).hasCurrentEdges n)
      ((s.graph.setCurrentType n (s.graph.currentType n)).hasCurrentEdges w) = false := by
    simp [needsCompletion, hfirst]
  have habsorb := absorb_of_hasCurrentEdges
    ((s.asked n w).mapGraph (·.setCurrentType n (s.graph.currentType n))) hfirst hsecond n w
    (s.graph.currentType n)
  refine (if_neg (Bool.eq_false_iff.1 hneeded)).trans ?_
  rw [habsorb, ← hincoming]
  rfl

/-- Its value is unified with that of the path. -/
theorem unifyTurn_unwrapped (hlt : w < s.graph.size) :
    unifyTurn (s.unwrapped n w) (.merge n w n [⟨f, v⟩]) =
      .next (s.unwrapped n w) [.pair next v, .merge n w n []] := by
  have hforward : (s.unwrapped n w).graph.forward? n = none := by
    rw [forward?_unwrapped hlt hne.symm, hn]
  have hself : (s.unwrapped n w).graph.deref n = n := Graph.deref_of_forward_none hforward
  have hedge : (s.unwrapped n w).graph.currentEdge? n f = some next := by
    rw [currentEdge?_unwrapped, hvalue]
  simp only [unifyTurn, handOver, hself, hedge]

end Step

section Descent

variable {ρ : Correspondence} {s t : Session}

/-- Sessions stay alike when a node of the wrapper is absorbed. -/
theorem Corresponds.unwrapped (h : s.Corresponds ρ t) {n w : NodeId} (hw : ∀ m, ¬ ρ m w) :
    s.Corresponds ρ (t.unwrapped n w) where
  sound := h.sound
  sound' := sound_ask_unify h.sound' (t.graph.currentType n) (t.graph.currentType w)
  same := h.same.trans (same_ask_unify t (t.graph.currentType n) (t.graph.currentType w))
  graph := by
    rw [graph_unwrapped]
    exact h.graph.setCurrentType_right.setForward_right hw n

theorem linked_unwrapped (ht : t.graph.Linked) {n w : Nat} (hd : t.graph.Distinct n w) :
    (t.unwrapped n w).graph.Linked := by
  rw [graph_unwrapped]
  exact (ht.setCurrentType n (t.graph.currentType n)).setForward (hd.symm.setCurrentType ..)

/-- The unification of a node with a wrapper comes to that of the end of the path with the root of
the wrapper. What is noted till then makes no difference, and what waits behind does nothing. -/
theorem exists_unwrapped (hr : s.AtRest) {root a w n m : NodeId} {path : List FeatureId}
    {nodes : List NodeId} (hwraps : t.graph.Wraps root path nodes w) (h : s.Corresponds ρ t)
    (ht : t.graph.Linked) (hspare : ∀ v ∈ nodes, t.graph.Spare ρ v) (hn : ρ n m)
    (hpossible : s.graph.PossibleAlong n path) (hfollow : s.graph.follow? n path = some a) :
    ∃ t' a' closing, s.Corresponds ρ t' ∧ t'.graph.Linked ∧ ρ a a' ∧
      (∀ u, Agenda.Leads unifyTurn u closing path.length u) ∧
      Agenda.Reaches unifyTurn t [.pair m w] (2 * path.length) t' (.pair a' root :: closing) := by
  induction path generalizing t w n m nodes with
  | nil =>
    cases hwraps
    cases hfollow
    exact ⟨t, m, [], h, ht, hn, Agenda.leads_nil, Agenda.reaches_refl _ _⟩
  | cons f path ih =>
    cases hwraps with
    | @cons _ _ nodes _ v htype hedges hnew hwraps =>
    obtain ⟨hw, hspare⟩ := List.forall_mem_cons.1 hspare
    obtain ⟨hbottom, hpossible⟩ := hpossible
    obtain ⟨next, hvalue, hfollow⟩ := Option.bind_eq_some_iff.1 hfollow
    have hlt : m < t.graph.size := (h.graph.lt hn).2
    have hne : m ≠ w := by
      rintro rfl
      exact hw.apart n hn
    have hforward := h.graph.forward?_of_atRest hr hn
    have hcurrent : t.graph.currentType m ≠ .bottom := by
      rw [← h.graph.currentType_eq hn, hr.currentType_eq]
      exact hbottom
    obtain ⟨next', hnext, hvalue'⟩ := h.graph.exists_currentEdge? hr hn hvalue
    obtain ⟨t', a', closing, h', ht', ha, hclosing, hreaches⟩ := ih
      (hwraps.congr (t.type_unwrapped m w) (t.edges_unwrapped m w)) (h.unwrapped hw.apart)
      (linked_unwrapped ht ⟨hlt, hw.lt, hforward, hw.forward, hne⟩)
      (fun u hu => spare_unwrapped hn hlt hw.lt (hspare u hu) fun heq => hnew (heq ▸ hu)) hnext
      (hpossible next hvalue) hfollow
    refine ⟨t', a', closing ++ [UnifyTask.merge m w m []], h', ht', ha, fun u => ?_, ?_⟩
    · exact (hclosing u).append (Agenda.leads_of_next rfl (Agenda.leads_nil u))
    · have hpair := unifyTurn_wrapper hforward hw.forward hne hvalue' h.sound' hcurrent
        (hw.type.trans htype) hedges hw.pending
      have hmerge := unifyTurn_unwrapped (v := v) hforward hne hvalue' hw.lt
      rw [List.length_cons, Nat.mul_succ, Nat.add_comm]
      exact ((Agenda.reaches_of_next hpair []).trans (Agenda.reaches_of_next hmerge [])).trans
        (hreaches.append [.merge m w m []])

/-- The unification that is come to has the answer of the whole one. -/
theorem unifyNodes_of_reaches {t' : Session} {m w a b : NodeId} {closing : List UnifyTask} {k : Nat}
    (hclosing : ∀ u, Agenda.Leads unifyTurn u closing k u)
    (hreaches : Agenda.Reaches unifyTurn t [.pair m w] (2 * k) t' (.pair a b :: closing))
    {budget : Nat} {unified : Bool} {t₁ : Session}
    (h : t'.unifyNodes budget a b = some (unified, t₁)) :
    ∃ t₂, t.unifyNodes (budget + 3 * k) m w = some (unified, t₂) ∧ (unified = true → t₂ = t₁) := by
  have hrun : ∀ extra, Agenda.run unifyTurn (2 * k + extra) t [.pair m w] =
      Agenda.run unifyTurn extra t' ([UnifyTask.pair a b] ++ closing) := hreaches.run_eq
  unfold unifyNodes at h ⊢
  cases hend : Agenda.run unifyTurn budget t' [.pair a b] with
  | done t₂ =>
    rw [hend] at h
    cases h
    obtain ⟨turns, hturns, hleads⟩ := Agenda.exists_leads_of_done hend
    have hbudget : budget + 3 * k = 2 * k + (budget + k) := by omega
    rw [hbudget, hrun, (hleads.append (hclosing t₁)).run_eq_done (Nat.add_le_add_right hturns k)]
    exact ⟨t₁, rfl, fun _ => rfl⟩
  | halted t₂ answer waiting =>
    rw [hend] at h
    cases h
    have hlong : Agenda.run unifyTurn (budget + k) t' [.pair a b] = .halted t₂ answer waiting := by
      rw [Agenda.run_add (by simp [hend]), hend]
    have hbehind : Agenda.run unifyTurn (budget + k) t' ([UnifyTask.pair a b] ++ closing) =
        .halted t₂ answer (waiting ++ closing) := by
      rw [Agenda.run_append (by simp [hlong]), hlong]
      rfl
    have hbudget : budget + 3 * k = 2 * k + (budget + k) := by omega
    rw [hbudget, hrun, hbehind]
    exact ⟨_, rfl, nofun⟩
  | spent t₂ waiting =>
    rw [hend] at h
    cases h

/-- The unification that is come to ends if the whole one does. -/
theorem exists_unifyNodes_of_reaches {t' : Session} {m w a b : NodeId} {closing : List UnifyTask}
    {k : Nat} (hclosing : ∀ u, Agenda.Leads unifyTurn u closing k u)
    (hreaches : Agenda.Reaches unifyTurn t [.pair m w] (2 * k) t' (.pair a b :: closing))
    {budget : Nat} {unified : Bool} {t₂ : Session}
    (h : t.unifyNodes budget m w = some (unified, t₂)) :
    ∃ t₁, t'.unifyNodes budget a b = some (unified, t₁) ∧ (unified = true → t₂ = t₁) := by
  cases hended : t'.unifyNodes budget a b with
  | some answer =>
    obtain ⟨t₃, hwhole, hsame⟩ := unifyNodes_of_reaches hclosing hreaches hended
    cases (unifyNodes_of_le (Nat.le_add_right ..) h).symm.trans hwhole
    exact ⟨answer.2, rfl, hsame⟩
  | none =>
    -- whoever has not come to the end of the part has not come to the end of the whole
    exfalso
    have hrun : Agenda.run unifyTurn (2 * k + budget) t [.pair m w] =
        Agenda.run unifyTurn budget t' ([UnifyTask.pair a b] ++ closing) := hreaches.run_eq budget
    have hlong := unifyNodes_of_le (Nat.le_add_left budget (2 * k)) h
    unfold unifyNodes at hended hlong
    cases hend : Agenda.run unifyTurn budget t' [.pair a b] with
    | spent t₃ waiting =>
      rw [hrun, Agenda.run_append (by simp [hend]), hend] at hlong
      cases hlong
    | done t₃ =>
      rw [hend] at hended
      cases hended
    | halted t₃ answer waiting =>
      rw [hend] at hended
      cases hended

end Descent

/-! ## Arguments and wrappers -/

theorem unifyArgument_eq {s : Session} {active : Item} {n : Nat} {argument : NodeId}
    (h : s.argument? active n = some argument) (budget : Nat) (passive : Item) (r : Restrictor) :
    (s.unifyArgument budget active passive n r).map (fun p => (p.1.map Item.root, p.2)) =
      (s.unifyNodes budget argument passive.root).map
        (concluded s.graph.size active.root r) := by
  simp only [unifyArgument, entangleArgument, h, entangle, Option.map_map]
  refine congrArg (Option.map · _) (funext fun p => ?_)
  obtain ⟨unified, s₁⟩ := p
  cases unified with
  | false => rfl
  | true =>
    show (((s₁.extractOver s.graph.size active.root r).1.map _).map Item.root, _) =
      s₁.extractOver s.graph.size active.root r
    rw [Option.map_map]
    exact Prod.ext (Option.map_id_fun ▸ rfl) rfl

/-- A node below one of two roots stands for itself. -/
def kept (s : Session) (a b : NodeId) : Correspondence :=
  fun n m => n = m ∧ (s.graph.Below a n ∨ s.graph.Below b n)

theorem Later.corresponds {s t : Session} (h : s.Later t) (hs : s.Sound) (ht : t.Sound)
    (hr : s.AtRest) (hr' : t.AtRest) {a b : Nat} (ha : a < s.graph.size) (hb : b < s.graph.size) :
    s.Corresponds (s.kept a b) t := by
  have hlt : ∀ {n : Nat}, s.graph.Below a n ∨ s.graph.Below b n → n < s.graph.size :=
    fun hn => hn.elim (Graph.Below.lt hs.graph.edgesLead ha) (Graph.Below.lt hs.graph.edgesLead hb)
  refine ⟨hs.grammar, ht.grammar, h.grammar, ?_, ?_, ?_, ?_, ?_⟩
  · rintro n _ ⟨rfl, hn⟩
    exact ⟨hlt hn, Nat.lt_of_lt_of_le (hlt hn) h.graph.size_le⟩
  · rintro n _ n' _ ⟨rfl, -⟩ ⟨rfl, -⟩
    rfl
  · rintro n _ ⟨rfl, hn⟩
    exact (h.graph.type_eq (hlt hn)).symm
  · rintro n _ ⟨rfl, hn⟩
    rw [h.graph.edges_eq (hlt hn)]
    exact List.forall₂_same.2 fun e he =>
      ⟨rfl, rfl, hn.imp (fun hn => hn.edge he) fun hn => hn.edge he⟩
  · rintro n _ ⟨rfl, hn⟩
    rw [hr.slots_eq, hr'.slots_eq]
    exact Slots.alike_unset (h.graph.type_eq (hlt hn)).symm

/-- Two unifications both fail or both succeed, and then sessions are alike in which the nodes below
both items correspond to themselves. -/
def EndedAlike (s : Session) (active passive : Item) (p q : Bool × Session) : Prop :=
  p.1 = q.1 ∧ (p.1 = true → ∃ ρ, s.kept active.root passive.root ≤ ρ ∧ p.2.Corresponds ρ q.2)

section Wrapped

variable {s t : Session} (hs : s.Sound) (hr : s.AtRest) (ht : t.Sound) (hr' : t.AtRest)
  (hlater : s.Later t) {active passive : Item} (hactive : active.root < s.graph.size)
  (hpassive : passive.root < s.graph.size) {n : Nat} {argument : NodeId}
  (hargument : s.argument? active n = some argument) {path : List FeatureId}
  {nodes : List NodeId} {w : NodeId} (hpath : s.grammar.special.argumentPath? n = some path)
  (hwraps : t.graph.Wraps passive.root path nodes w)
  (hnew : ∀ v ∈ nodes, ¬ s.graph.Below active.root v ∧ ¬ s.graph.Below passive.root v)
  (hpossible : s.graph.PossibleAlong active.root path)
include hs hr ht hr' hlater hactive hpassive hargument hpath hwraps hnew hpossible

/-- The unifications come to their ends together, with sessions that are alike if they succeed. -/
theorem unifyNodes_alike_wrapped :
    (∀ {budget p}, s.unifyNodes budget argument passive.root = some p →
      ∃ q, t.unifyNodes (budget + 3 * path.length) active.root w = some q ∧
        s.EndedAlike active passive p q) ∧
    ∀ {budget q}, t.unifyNodes budget active.root w = some q →
      ∃ p, s.unifyNodes budget argument passive.root = some p ∧
        s.EndedAlike active passive p q := by
  have hstart := hlater.corresponds hs ht hr hr' hactive hpassive
  have hlinked := Graph.linked_of_atRest hs.graph.stamped hr hs.graph.edgesLead
  have hlinked' := Graph.linked_of_atRest ht.graph.stamped hr' ht.graph.edgesLead
  have hspare : ∀ v ∈ nodes, t.graph.Spare (s.kept active.root passive.root) v := by
    intro v hv
    refine ⟨hwraps.lt v hv, hr'.forward_eq v, hr'.currentType_eq v, hr'.pending_eq v, ?_⟩
    rintro _ ⟨rfl, hbelow⟩
    exact hbelow.elim (hnew _ hv).1 (hnew _ hv).2
  have hfollow : s.graph.follow? active.root path = some argument := by
    rw [argument?_eq_follow hr, hpath] at hargument
    exact hargument
  obtain ⟨t', a', closing, h', ht', ha, hclosing, hreaches⟩ := exists_unwrapped hr hwraps hstart
    hlinked' hspare ⟨rfl, .inl .refl⟩ hpossible hfollow
  have hinstep := unifyNodes_alike h' hlinked ht' ha ⟨rfl, .inr .refl⟩
  constructor
  · intro budget p hended
    have halike := hinstep budget
    rw [hended] at halike
    generalize hpart : t'.unifyNodes budget a' passive.root = part at halike
    cases halike with
    | @some _ part halike =>
    obtain ⟨t₂, hwhole, hsame⟩ := unifyNodes_of_reaches hclosing hreaches hpart
    refine ⟨_, hwhole, halike.1, fun htrue => ?_⟩
    rw [hsame (halike.1 ▸ htrue)]
    exact halike.2 htrue
  · intro budget q hended
    obtain ⟨t₁, hpart, hsame⟩ := exists_unifyNodes_of_reaches hclosing hreaches hended
    have halike := hinstep budget
    rw [hpart] at halike
    generalize s.unifyNodes budget argument passive.root = ended at halike
    cases halike with
    | @some p _ halike =>
    refine ⟨p, rfl, halike.1, fun htrue => ?_⟩
    rw [hsame (halike.1 ▸ htrue)]
    exact halike.2 htrue

omit hpath hnew hpossible in
theorem concluded_alike_wrapped (r : Restrictor) {budget budget' : Nat} {p q : Bool × Session}
    (hp : s.unifyNodes budget argument passive.root = some p)
    (hq : t.unifyNodes budget' active.root w = some q) (h : s.EndedAlike active passive p q) :
    AnswersAlike (concluded s.graph.size active.root r p)
      (concluded t.graph.size active.root r q) := by
  have hlinked := Graph.linked_of_atRest hs.graph.stamped hr hs.graph.edgesLead
  have hlinked' := Graph.linked_of_atRest ht.graph.stamped hr' ht.graph.edgesLead
  have hle := hlater.graph.size_le
  have hw : w < t.graph.size := hwraps.mem_or_eq.elim (hwraps.lt w) fun heq =>
    heq ▸ Nat.lt_of_lt_of_le hpassive hle
  obtain ⟨-, hext, hp⟩ := linking_unifyNodes ⟨hlinked, hs.grammar.rooted⟩
    (argument_lt hlinked hargument) hpassive hp
  obtain ⟨-, hext', hq⟩ := linking_unifyNodes ⟨hlinked', ht.grammar.rooted⟩
    (Nat.lt_of_lt_of_le hactive hle) hw hq
  refine concluded_alike r h.1 ⟨hext.size_le, hp⟩ ⟨hext'.size_le, hq⟩ fun htrue => ?_
  obtain ⟨ρ, hkept, halike⟩ := h.2 htrue
  exact ⟨ρ, hkept _ _ ⟨rfl, .inl .refl⟩, halike⟩

/-- To unify a passive item into an argument is to unify the active one with a wrapper of the passive
one: either both come to an end or none does, and either both have results, which are laid out alike,
or both have none. The wrapper costs three turns for each of its nodes. -/
theorem unifyArgument_alike_wrapped (r : Restrictor) :
    (∀ {budget p}, s.unifyArgument budget active passive n r = some p →
      ∃ q, t.unifyInto (budget + 3 * path.length) active.root w r = some q ∧
        AnswersAlike (p.1.map Item.root, p.2) q) ∧
    ∀ {budget q}, t.unifyInto budget active.root w r = some q →
      ∃ p, s.unifyArgument budget active passive n r = some p ∧
        AnswersAlike (p.1.map Item.root, p.2) q := by
  obtain ⟨hforth, hback⟩ := unifyNodes_alike_wrapped hs hr ht hr' hlater hactive hpassive
    hargument hpath hwraps hnew hpossible
  constructor
  · intro budget p hp
    have heq := unifyArgument_eq hargument budget passive r
    rw [hp] at heq
    obtain ⟨ended, hended, heq⟩ := Option.map_eq_some_iff.1 heq.symm
    obtain ⟨ended', hended', hsame⟩ := hforth hended
    have hanswers := concluded_alike_wrapped hs hr ht hr' hlater hactive hpassive hargument hwraps r
      hended hended' hsame
    rw [heq] at hanswers
    refine ⟨concluded t.graph.size active.root r ended', ?_, hanswers⟩
    rw [unifyInto_eq, hended']
    rfl
  · intro budget q hq
    rw [unifyInto_eq] at hq
    obtain ⟨ended', hended', rfl⟩ := Option.map_eq_some_iff.1 hq
    obtain ⟨ended, hended, hsame⟩ := hback hended'
    have heq := unifyArgument_eq hargument budget passive r
    rw [hended] at heq
    obtain ⟨p, hp, heq⟩ := Option.map_eq_some_iff.1 heq
    have hanswers := concluded_alike_wrapped hs hr ht hr' hlater hactive hpassive hargument hwraps r
      hended hended' hsame
    rw [← heq] at hanswers
    exact ⟨p, hp, hanswers⟩

end Wrapped

/-- A list of two elements that are one node, which is unified with node 4 as the second one, and a
wrapper of node 4. -/
def repeating : Session :=
  Sample.session (listed [] [] []) [(.top, [⟨1, 1⟩]), (.top, [⟨2, 2⟩, ⟨3, 3⟩]), (.of 1, []),
    (.top, [⟨2, 2⟩]), (.of 2, []), (.top, [⟨1, 6⟩]), (.top, [⟨3, 7⟩]), (.top, [⟨2, 4⟩])]

theorem sound_repeating : repeating.Sound ∧ repeating.AtRest :=
  Sample.sound_session (sound_listed Sample.sound_grammar_nil _) (by decide)

/-- The second argument is unified with node 4 in both ways, and there are results. -/
theorem unifyArgument_alike_wrapped_repeating : ∃ p q,
    repeating.unifyArgument 20 (repeating.item 0) (repeating.item 4) 1 unrestricted = some p ∧
    p.1.isSome = true ∧ repeating.unifyInto 29 0 5 unrestricted = some q ∧
    AnswersAlike (p.1.map Item.root, p.2) q := by
  have hanswer : (repeating.unifyArgument 20 (repeating.item 0) (repeating.item 4) 1 unrestricted).map
      (fun p => p.1.isSome) = some true := by
    decide +kernel
  obtain ⟨p, hp, hsome⟩ := Option.map_eq_some_iff.1 hanswer
  have hclosed : ∀ n ∈ [0, 1, 2, 3], ∀ e ∈ repeating.graph.edges n, e.target ∈ [0, 1, 2, 3] := by
    decide
  have hclosed' : ∀ n ∈ [4], ∀ e ∈ repeating.graph.edges n, e.target ∈ [4] := by decide
  have hnew : ∀ v ∈ [5, 6, 7], ¬ repeating.graph.Below 0 v ∧ ¬ repeating.graph.Below 4 v := fun v hv =>
    ⟨Graph.not_below_of_closed hclosed (by decide) (by decide) v hv,
      Graph.not_below_of_closed hclosed' (by decide) (by decide) v hv⟩
  have hwraps : repeating.graph.Wraps 4 [1, 3, 2] [5, 6, 7] 5 :=
    .cons rfl rfl (by decide) (.cons rfl rfl (by decide) (.cons rfl rfl (by decide) .root))
  have hactive : (repeating.item 0).root < repeating.graph.size := by decide
  have hpassive : (repeating.item 4).root < repeating.graph.size := by decide
  have hargument : repeating.argument? (repeating.item 0) 1 = some 2 := by decide
  obtain ⟨hforth, -⟩ := unifyArgument_alike_wrapped sound_repeating.1 sound_repeating.2 sound_repeating.1
    sound_repeating.2 ⟨.refl _, .refl _⟩ hactive hpassive hargument rfl hwraps hnew (by decide)
    unrestricted
  obtain ⟨q, hq, halike⟩ := hforth hp
  exact ⟨p, q, hp, hsome, hq, halike⟩

/-- An item whose root is of the type `bottom`, with one argument, and a wrapper of node 3. -/
def hollow : Session :=
  Sample.session (listed [] [] []) [(.bottom, [⟨1, 1⟩]), (.top, [⟨2, 2⟩]), (.of 1, []),
    (.of 2, []), (.top, [⟨1, 5⟩]), (.top, [⟨2, 3⟩])]

/-- A node of the type `bottom` on the path clashes with the wrapper. To unify into the argument does
not look at it. -/
theorem not_unifyArgument_alike_wrapped : hollow.Sound ∧ hollow.AtRest ∧
    (∀ n, hollow.graph.Below 0 n → ¬ hollow.graph.Below 3 n) ∧
    hollow.argument? (hollow.item 0) 0 = some 2 ∧
    hollow.grammar.special.argumentPath? 0 = some [1, 2] ∧
    hollow.graph.Wraps 3 [1, 2] [4, 5] 4 ∧
    (∀ v ∈ [4, 5], ¬ hollow.graph.Below 0 v ∧ ¬ hollow.graph.Below 3 v) ∧
    (hollow.unifyArgument 20 (hollow.item 0) (hollow.item 3) 0 unrestricted).map
      (fun p => p.1.isSome) = some true ∧
    (hollow.unifyInto 20 0 4 unrestricted).map Prod.fst = some none := by
  have hclosed : ∀ n ∈ [0, 1, 2], ∀ e ∈ hollow.graph.edges n, e.target ∈ [0, 1, 2] := by decide
  have hclosed' : ∀ n ∈ [3], ∀ e ∈ hollow.graph.edges n, e.target ∈ [3] := by decide
  have hsound : hollow.Sound ∧ hollow.AtRest :=
    Sample.sound_session (sound_listed Sample.sound_grammar_nil _) (by decide)
  refine ⟨hsound.1, hsound.2, fun n hn => ?_, by decide, rfl,
    .cons rfl rfl (by decide) (.cons rfl rfl (by decide) .root), ?_, by decide +kernel,
    by decide +kernel⟩
  · exact Graph.not_below_of_closed hclosed' (by decide) (by decide) n
      (Graph.mem_of_below hclosed (by decide) hn)
  · exact fun v hv => ⟨Graph.not_below_of_closed hclosed (by decide) (by decide) v hv,
      Graph.not_below_of_closed hclosed' (by decide) (by decide) v hv⟩

end Session

end FeatureLogic
