import FeatureLogic.Session.Unify
import FeatureLogic.Proofs.Graph.Entangled
import FeatureLogic.Proofs.Session.Sound

/-!
Webs: what a unification has made of a graph so far, without the notes that record it. Every node
belongs to a class, known by the node that stands for it, and classes have types and edges. The
steps of a unification are a relation between webs (`UnifyStep`).
-/

namespace FeatureLogic

/-- Nodes in classes. -/
structure Web where
  size : Nat
  /-- The committed structure. -/
  shape : Shape
  /-- The node that stands for the class of a node. -/
  rep : NodeId → NodeId
  /-- The type of a class, by the node that stands for it. -/
  type : NodeId → TypeId
  /-- The edges of a class, by the node that stands for it. -/
  edge? : NodeId → FeatureId → Option NodeId

/-- The web of a graph in an episode. -/
def Graph.web (g : Graph) : Web := ⟨g.size, g.shape, g.deref, g.currentType, g.currentEdge?⟩

/-- All nodes that a task names exist. -/
def UnifyTask.Within (size : Nat) : UnifyTask → Prop
  | .pair left right => left < size ∧ right < size
  | .merge _ _ survivor incoming => survivor < size ∧ ∀ e ∈ incoming, e.target < size
  | .resume _ _ first second => first < size ∧ second < size

theorem UnifyTask.Within.mono {size size' : Nat} (hsize : size ≤ size') {task : UnifyTask}
    (h : task.Within size) : task.Within size' := by
  cases task with
  | pair left right => exact ⟨Nat.lt_of_lt_of_le h.1 hsize, Nat.lt_of_lt_of_le h.2 hsize⟩
  | merge left right survivor incoming =>
    exact ⟨Nat.lt_of_lt_of_le h.1 hsize, fun e he => Nat.lt_of_lt_of_le (h.2 e he) hsize⟩
  | resume left right first second =>
    exact ⟨Nat.lt_of_lt_of_le h.1 hsize, Nat.lt_of_lt_of_le h.2 hsize⟩

namespace Web

/-- The structure that has come about, in which classes are nodes. -/
def view (W : Web) : Shape := ⟨W.type, fun n f => (W.edge? n f).map W.rep⟩

/-- The same structure, read from any node of a class. -/
def settled (W : Web) : Shape :=
  ⟨fun n => W.type (W.rep n), fun n f => (W.edge? (W.rep n) f).map W.rep⟩

/-- The web with another structure in the place of the committed one. -/
def withShape (W : Web) (S : Shape) : Web := { W with shape := S }

/-- The node has an edge in the web. -/
def HasEdges (W : Web) (n : NodeId) : Prop := ∃ f m, W.edge? n f = some m

/-- What holds of every web of a unification. -/
structure Sound (W : Web) : Prop where
  rep_rep : ∀ n, W.rep (W.rep n) = W.rep n
  rep_lt : ∀ {n : Nat}, n < W.size → W.rep n < W.size
  edge_lt : ∀ {n f m}, W.edge? n f = some m → m < W.size
  shape_lt : ∀ {n f m}, W.shape.value? n f = some m → m < W.size

theorem Sound.reach_lt {W : Web} (h : W.Sound) {root n : Nat} (hroot : root < W.size)
    (hn : W.view.Reach (W.rep root) n) : n < W.size ∧ W.rep n = n := by
  cases Relation.ReflTransGen.cases_tail hn with
  | inl heq =>
    rw [heq]
    exact ⟨h.rep_lt hroot, h.rep_rep root⟩
  | inr hstep =>
    obtain ⟨m, -, f, hf⟩ := hstep
    obtain ⟨k, hk, rfl⟩ := Option.map_eq_some_iff.1 hf
    exact ⟨h.rep_lt (h.edge_lt hk), h.rep_rep k⟩

theorem Sound.shape_reach_lt {W : Web} (h : W.Sound) {x n : Nat} (hx : x < W.size)
    (hn : W.shape.Reach x n) : n < W.size := by
  induction hn with
  | refl => exact hx
  | tail _ hs _ =>
    obtain ⟨f, hf⟩ := hs
    exact h.shape_lt hf

theorem Sound.withShape {W : Web} (h : W.Sound) {S : Shape}
    (hS : ∀ {n f m}, S.value? n f = some m → m < W.size) : (W.withShape S).Sound :=
  ⟨h.rep_rep, h.rep_lt, h.edge_lt, hS⟩

theorem Sound.settled_lt {W : Web} (h : W.Sound) {n : NodeId} {f : FeatureId} {m : NodeId}
    (hm : W.settled.value? n f = some m) : m < W.size := by
  obtain ⟨k, hk, rfl⟩ := Option.map_eq_some_iff.1 hm
  exact h.rep_lt (h.edge_lt hk)

/-- From a node that stands for its class, both readings are the same. -/
theorem Sound.isomorphic_settled {W : Web} (h : W.Sound) (n : NodeId) :
    W.view.Isomorphic (W.rep n) W.settled (W.rep n) := by
  have hrep : ∀ {m}, W.view.Reach (W.rep n) m → W.rep m = m := by
    intro m hm
    rcases Relation.ReflTransGen.cases_tail hm with heq | ⟨k, -, f, hf⟩
    · rw [heq, h.rep_rep]
    · obtain ⟨j, -, rfl⟩ := Option.map_eq_some_iff.1 hf
      exact h.rep_rep j
  refine ⟨id, rfl, fun _ _ _ _ heq => heq, fun m hm => ⟨?_, fun f => ?_⟩⟩
  · show W.type (W.rep m) = W.type m
    rw [hrep hm]
  · show (W.edge? (W.rep m) f).map W.rep = ((W.edge? m f).map W.rep).map id
    rw [hrep hm, Option.map_id]
    rfl

/-- The class of `absorbed` is taken into that of `survivor`, which gets a type. -/
structure Union (W : Web) (survivor absorbed : NodeId) (type : TypeId) (W' : Web) : Prop where
  size_eq : W'.size = W.size
  shape_eq : W'.shape = W.shape
  rep_eq : ∀ n, W'.rep n = if W.rep n = absorbed then survivor else W.rep n
  type_self : W'.type survivor = type
  type_eq : ∀ {n}, n ≠ survivor → n ≠ absorbed → W'.type n = W.type n
  edge_eq : W'.edge? = W.edge?

section Union

variable {W W' : Web} {survivor absorbed : NodeId} {type : TypeId}
  (h : W.Union survivor absorbed type W')
include h

theorem Union.rep_congr {x y : NodeId} (heq : W.rep x = W.rep y) : W'.rep x = W'.rep y := by
  rw [h.rep_eq, h.rep_eq, heq]

theorem Union.rep_of_ne {x : NodeId} (hx : W.rep x ≠ absorbed) : W'.rep x = W.rep x := by
  rw [h.rep_eq, if_neg hx]

/-- Nodes of the two classes are in the class of the survivor. -/
theorem Union.rep_of_mem {x : NodeId} (hx : W.rep x = survivor ∨ W.rep x = absorbed) :
    W'.rep x = survivor := by
  rw [h.rep_eq]
  split
  · rfl
  · rename_i hne
    exact hx.resolve_right hne

/-- A class that stands for itself afterwards is the survivor, or it did so before and has the type
that it had. -/
theorem Union.self_cases {n : NodeId} (hself : W'.rep n = n) :
    n = survivor ∨ n ≠ survivor ∧ W.rep n = n ∧ W'.type n = W.type n := by
  by_cases hn : n = survivor
  · exact .inl hn
  have hne : W.rep n ≠ absorbed := fun heq => hn (hself.symm.trans (h.rep_of_mem (.inr heq)))
  have hrep : W.rep n = n := (h.rep_of_ne hne).symm.trans hself
  exact .inr ⟨hn, hrep, h.type_eq hn (hrep ▸ hne)⟩

end Union

section Sides

variable {first second survivor absorbed : NodeId}
  (h : (survivor = first ∧ absorbed = second) ∨ (survivor = second ∧ absorbed = first))
include h

/-- What holds of two classes holds of the one that survives and of the one that is absorbed. -/
theorem sides {P : NodeId → Prop} (hfirst : P first) (hsecond : P second) :
    P survivor ∧ P absorbed := by
  rcases h with ⟨rfl, rfl⟩ | ⟨rfl, rfl⟩
  · exact ⟨hfirst, hsecond⟩
  · exact ⟨hsecond, hfirst⟩

theorem mem_sides : (first = survivor ∨ first = absorbed) ∧
    (second = survivor ∨ second = absorbed) := by
  rcases h with ⟨rfl, rfl⟩ | ⟨rfl, rfl⟩ <;> simp

end Sides

/-- A class gains an edge. -/
structure Gain (W : Web) (holder : NodeId) (e : Edge) (W' : Web) : Prop where
  size_eq : W'.size = W.size
  shape_eq : W'.shape = W.shape
  rep_eq : W'.rep = W.rep
  type_eq : W'.type = W.type
  edge_eq : ∀ n f, W'.edge? n f =
    if holder = n ∧ e.feature = f then some e.target else W.edge? n f

/-- A class gets a type, and copies of the nodes below `root` in another structure come in as
classes of their own. -/
structure Import (W : Web) (first : NodeId) (type : TypeId) (source : Shape) (root : NodeId)
    (κ : NodeId → NodeId) (W' : Web) : Prop where
  size_le : W.size ≤ W'.size
  rep_eq : W'.rep = W.rep
  type_self : W'.type first = type
  type_eq : ∀ {n : Nat}, n < W.size → n ≠ first → W'.type n = W.type n
  edge_eq : ∀ {n : Nat}, n < W.size → W'.edge? n = W.edge? n
  shape_type_eq : ∀ {n : Nat}, n < W.size → W'.shape.type n = W.shape.type n
  shape_value_eq : ∀ {n : Nat}, n < W.size → W'.shape.value? n = W.shape.value? n
  le_copy : ∀ {n}, source.Reach root n → W.size ≤ κ n
  copy_lt : ∀ {n}, source.Reach root n → κ n < W'.size
  rep_copy : ∀ {n}, source.Reach root n → W'.rep (κ n) = κ n
  type_copy : ∀ {n}, source.Reach root n → W'.type (κ n) = source.type n
  edge_copy : ∀ {n}, source.Reach root n → ∀ f, W'.edge? (κ n) f = (source.value? n f).map κ
  shape_type_copy : ∀ {n}, source.Reach root n → W'.shape.type (κ n) = source.type n
  shape_value_copy : ∀ {n}, source.Reach root n →
    ∀ f, W'.shape.value? (κ n) f = (source.value? n f).map κ
  inj : ∀ {n m}, source.Reach root n → source.Reach root m → κ n = κ m → n = m
  surj : ∀ {k : Nat}, W.size ≤ k → k < W'.size → ∃ n, source.Reach root n ∧ κ n = k

/-- The prototype of the type `type` is met already: neither class has edges, or one of them has
edges and that type. -/
def Covered (W : Web) (first second : NodeId) (type : TypeId) : Prop :=
  (¬ W.HasEdges first ∧ ¬ W.HasEdges second) ∨
    ∃ z, (z = first ∨ z = second) ∧ W.type z = type ∧ W.HasEdges z

/-- A prototype that no class has met yet is for a class with edges. -/
theorem hasEdges_of_not_covered {W : Web} {first second : NodeId} {type : TypeId}
    (h : ¬ W.Covered first second type) : W.HasEdges first ∨ W.HasEdges second := by
  by_contra hnone
  rw [not_or] at hnone
  exact h (.inl hnone)

end Web

open Web in
/-- What one turn of a unification that goes on does, with the tasks that it asks for. -/
inductive UnifyStep (g : Grammar) : Web → UnifyTask → Web → List UnifyTask → Prop
  /-- Two nodes of one class are met. -/
  | met {W : Web} {left right : NodeId} (h : W.rep left = W.rep right) :
    UnifyStep g W (.pair left right) W []
  /-- One of two classes is taken into the other. Its edges, if it has any, are handed over. -/
  | absorb {W W' : Web} {left right survivor absorbed : NodeId} {type : TypeId}
    {tasks : List UnifyTask}
    (hreps : (survivor = W.rep left ∧ absorbed = W.rep right) ∨
      (survivor = W.rep right ∧ absorbed = W.rep left))
    (hne : survivor ≠ absorbed)
    (htype : type = g.lattice.glb (W.type (W.rep left)) (W.type (W.rep right)))
    (hbottom : type ≠ .bottom)
    (hcovered : g.featuredPrototype? type = none ∨ W.Covered (W.rep left) (W.rep right) type)
    (hunion : W.Union survivor absorbed type W')
    (htasks : (tasks = [] ∧ ¬ W.HasEdges absorbed) ∨
      ∃ incoming, tasks = [.merge left right survivor incoming] ∧ W.HasEdges survivor ∧
        ∀ f m, W.edge? absorbed f = some m ↔ ⟨f, m⟩ ∈ incoming) :
    UnifyStep g W (.pair left right) W' tasks
  /-- The first of two classes meets the prototype of the type that both are to have. -/
  | complete {W W' : Web} {left right root : NodeId} {type : TypeId} {κ : NodeId → NodeId}
    (hne : W.rep left ≠ W.rep right)
    (htype : type = g.lattice.glb (W.type (W.rep left)) (W.type (W.rep right)))
    (hbottom : type ≠ .bottom)
    (hproto : g.featuredPrototype? type = some root)
    (hmissed : ¬ W.Covered (W.rep left) (W.rep right) type)
    (himport : W.Import (W.rep left) type g.prototypes.shape root κ W') :
    UnifyStep g W (.pair left right) W'
      [.pair (W.rep left) (κ root), .resume left right (W.rep left) (W.rep right)]
  /-- All edges are handed over. -/
  | merged {W : Web} {left right survivor : NodeId} :
    UnifyStep g W (.merge left right survivor []) W []
  /-- An edge is handed over to a class that has the feature. -/
  | shared {W : Web} {left right survivor existing : NodeId} {e : Edge} {rest : List Edge}
    (h : W.edge? (W.rep survivor) e.feature = some existing) :
    UnifyStep g W (.merge left right survivor (e :: rest)) W
      [.pair existing e.target, .merge left right survivor rest]
  /-- An edge is handed over to a class that has not the feature. -/
  | gained {W W' : Web} {left right survivor : NodeId} {e : Edge} {rest : List Edge}
    (h : W.edge? (W.rep survivor) e.feature = none) (hgain : W.Gain (W.rep survivor) e W') :
    UnifyStep g W (.merge left right survivor (e :: rest)) W'
      [.merge left right survivor rest]
  /-- Two classes are unified once more. -/
  | resume {W : Web} {left right first second : NodeId} :
    UnifyStep g W (.resume left right first second) W [.pair first second]

namespace Web

/-- Committed structure stays, and new nodes are classes of their own without notes. -/
structure Grows (W W' : Web) : Prop where
  size_le : W.size ≤ W'.size
  shape_type_eq : ∀ {n : Nat}, n < W.size → W'.shape.type n = W.shape.type n
  shape_value_eq : ∀ {n : Nat}, n < W.size → W'.shape.value? n = W.shape.value? n
  rep_new : ∀ {n : Nat}, W.size ≤ n → n < W'.size → W'.rep n = n
  type_new : ∀ {n : Nat}, W.size ≤ n → n < W'.size → W'.type n = W'.shape.type n
  edge_new : ∀ {n : Nat}, W.size ≤ n → n < W'.size → W'.edge? n = W'.shape.value? n

theorem grows_of_shape_eq {W W' : Web} (hsize : W'.size = W.size) (hshape : W'.shape = W.shape) :
    W.Grows W' where
  size_le := Nat.le_of_eq hsize.symm
  shape_type_eq _ := by rw [hshape]
  shape_value_eq _ := by rw [hshape]
  rep_new hn hlt := absurd (hsize ▸ hlt) (Nat.not_lt.2 hn)
  type_new hn hlt := absurd (hsize ▸ hlt) (Nat.not_lt.2 hn)
  edge_new hn hlt := absurd (hsize ▸ hlt) (Nat.not_lt.2 hn)

theorem Import.size_lt {W W' : Web} {first root : NodeId} {type : TypeId} {source : Shape}
    {κ : NodeId → NodeId} (h : W.Import first type source root κ W') : W.size < W'.size :=
  Nat.lt_of_le_of_lt (h.le_copy .refl) (h.copy_lt .refl)

theorem Import.grows {W W' : Web} {first root : NodeId} {type : TypeId} {source : Shape}
    {κ : NodeId → NodeId} (h : W.Import first type source root κ W') : W.Grows W' where
  size_le := h.size_le
  shape_type_eq := h.shape_type_eq
  shape_value_eq := h.shape_value_eq
  rep_new hn hlt := by
    obtain ⟨k, hk, rfl⟩ := h.surj hn hlt
    exact h.rep_copy hk
  type_new hn hlt := by
    obtain ⟨k, hk, rfl⟩ := h.surj hn hlt
    rw [h.type_copy hk, h.shape_type_copy hk]
  edge_new hn hlt := by
    obtain ⟨k, hk, rfl⟩ := h.surj hn hlt
    funext f
    rw [h.edge_copy hk, h.shape_value_copy hk]

end Web

section Step

variable {g : Grammar} {W W' : Web} {task : UnifyTask} {tasks : List UnifyTask}

/-- Steps do not look at the committed structure, so another one goes along with them as well. -/
theorem UnifyStep.withShape (hs : UnifyStep g W task W' tasks) (hW' : W'.Sound) {S : Shape}
    (hS : ∀ {n f m}, S.value? n f = some m → m < W.size) :
    ∃ S', UnifyStep g (W.withShape S) task (W'.withShape S') tasks ∧
      S.Agrees S' W.size ∧ ∀ {n f m}, S'.value? n f = some m → m < W'.size := by
  cases hs with
  | met h => exact ⟨S, .met h, .refl S _, hS⟩
  | absorb hreps hne htype hbottom hcovered hunion htasks =>
    refine ⟨S, .absorb hreps hne htype hbottom hcovered ?_ htasks, .refl S _, fun hm => ?_⟩
    · exact ⟨hunion.size_eq, rfl, hunion.rep_eq, hunion.type_self, hunion.type_eq, hunion.edge_eq⟩
    · rw [hunion.size_eq]
      exact hS hm
  | complete hne htype hbottom hproto hmissed himport =>
    refine ⟨⟨fun n => if n < W.size then S.type n else W'.shape.type n,
      fun n => if n < W.size then S.value? n else W'.shape.value? n⟩,
      .complete hne htype hbottom hproto hmissed ⟨himport.size_le, himport.rep_eq, himport.type_self,
        himport.type_eq, himport.edge_eq, fun hn => if_pos hn,
        fun hn => if_pos hn, himport.le_copy, himport.copy_lt,
        himport.rep_copy, himport.type_copy, himport.edge_copy, fun {n} hn => ?_,
        fun {n} hn f => ?_, himport.inj, himport.surj⟩, ⟨fun hn => if_pos hn, fun hn => if_pos hn⟩,
      fun {n f m} hm => ?_⟩
    · exact (if_neg (Nat.not_lt.2 (himport.le_copy hn))).trans (himport.shape_type_copy hn)
    · exact (congrFun (if_neg (Nat.not_lt.2 (himport.le_copy hn))) f).trans
        (himport.shape_value_copy hn f)
    · simp only at hm
      split at hm
      · exact Nat.lt_of_lt_of_le (hS hm) himport.size_le
      · exact hW'.shape_lt hm
  | merged => exact ⟨S, .merged, .refl S _, hS⟩
  | shared h => exact ⟨S, .shared h, .refl S _, hS⟩
  | gained h hgain =>
    refine ⟨S, .gained h ?_, .refl S _, fun hm => ?_⟩
    · exact ⟨hgain.size_eq, rfl, hgain.rep_eq, hgain.type_eq, hgain.edge_eq⟩
    · rw [hgain.size_eq]
      exact hS hm
  | resume => exact ⟨S, .resume, .refl S _, hS⟩

variable (hs : UnifyStep g W task W' tasks)
include hs

theorem UnifyStep.grows : W.Grows W' := by
  cases hs with
  | absorb hreps hne htype hbottom hcovered hunion htasks =>
    exact Web.grows_of_shape_eq hunion.size_eq hunion.shape_eq
  | complete hne htype hbottom hproto hmissed himport => exact himport.grows
  | gained hnone hgain => exact Web.grows_of_shape_eq hgain.size_eq hgain.shape_eq
  | met | merged | shared | resume => exact Web.grows_of_shape_eq rfl rfl

/-- A step makes no new nodes, or a prototype comes in that was not met. -/
theorem UnifyStep.size_eq_or : W'.size = W.size ∨
    ∃ left right type root κ, task = .pair left right ∧
      tasks = [.pair (W.rep left) (κ root), .resume left right (W.rep left) (W.rep right)] ∧
      type = g.lattice.glb (W.type (W.rep left)) (W.type (W.rep right)) ∧
      g.featuredPrototype? type = some root ∧ ¬ W.Covered (W.rep left) (W.rep right) type ∧
      W.Import (W.rep left) type g.prototypes.shape root κ W' := by
  cases hs with
  | absorb hreps hne htype hbottom hcovered hunion htasks => exact .inl hunion.size_eq
  | complete hne htype hbottom hproto hmissed himport =>
    exact .inr ⟨_, _, _, _, _, rfl, rfl, htype, hproto, hmissed, himport⟩
  | gained hnone hgain => exact .inl hgain.size_eq
  | met | merged | shared | resume => exact .inl rfl

/-- Nodes of one class stay in one class. -/
theorem UnifyStep.rep_congr {x y : NodeId} (heq : W.rep x = W.rep y) : W'.rep x = W'.rep y := by
  cases hs with
  | absorb hreps hne htype hbottom hcovered hunion htasks => exact hunion.rep_congr heq
  | complete hne htype hbottom hproto hmissed himport => rwa [himport.rep_eq]
  | gained hnone hgain => rwa [hgain.rep_eq]
  | met | merged | shared | resume => exact heq

/-- A node that stands for its class after a step did so before. -/
theorem UnifyStep.rep_self (hW : W.Sound) {n : NodeId} (hn : W'.rep n = n) : W.rep n = n := by
  cases hs with
  | @absorb _ left right survivor absorbed type _ hreps hne htype hbottom hcovered hunion htasks =>
    rcases hunion.self_cases hn with rfl | ⟨-, hn, -⟩
    · exact (Web.sides (P := fun z => W.rep z = z) hreps (hW.rep_rep _) (hW.rep_rep _)).1
    · exact hn
  | complete hne htype hbottom hproto hmissed himport => exact himport.rep_eq ▸ hn
  | gained hnone hgain => exact hgain.rep_eq ▸ hn
  | met | merged | shared | resume => exact hn

/-- The type of the class of a node only gets more specific. -/
theorem UnifyStep.type_le (hg : g.Sound) (hW : W.Sound) {n : Nat} (hn : n < W.size) :
    g.hierarchy.Le (W'.type (W'.rep n)) (W.type (W.rep n)) := by
  have hle : ∀ {x y : NodeId} {type : TypeId}, type = g.lattice.glb (W.type x) (W.type y) →
      g.hierarchy.Le type (W.type x) ∧ g.hierarchy.Le type (W.type y) := by
    rintro x y type rfl
    exact ⟨Lattice.glb_le_left hg.lattice.hierarchy _ _,
      Lattice.glb_le_right hg.lattice.hierarchy _ _⟩
  cases hs with
  | @absorb _ left right survivor absorbed type _ hreps hne htype hbottom hcovered hunion htasks =>
    by_cases hmem : W.rep n = survivor ∨ W.rep n = absorbed
    · rw [hunion.rep_of_mem hmem, hunion.type_self]
      obtain ⟨hsurvivor, habsorbed⟩ := Web.sides (P := fun z => g.hierarchy.Le type (W.type z)) hreps
        (hle htype).1 (hle htype).2
      rcases hmem with h | h <;> rw [h]
      · exact hsurvivor
      · exact habsorbed
    · rw [not_or] at hmem
      rw [hunion.rep_of_ne hmem.2, hunion.type_eq hmem.1 hmem.2]
      exact Hierarchy.le_refl
  | @complete _ left right root type κ hne htype hbottom hproto hmissed himport =>
    rw [himport.rep_eq]
    by_cases hfirst : W.rep n = W.rep left
    · rw [hfirst, himport.type_self]
      exact (hle htype).1
    · rw [himport.type_eq (hW.rep_lt hn) hfirst]
      exact Hierarchy.le_refl
  | gained hnone hgain =>
    rw [hgain.rep_eq, hgain.type_eq]
    exact Hierarchy.le_refl
  | met | merged | shared | resume => exact Hierarchy.le_refl

/-- A possible type does not become an impossible one. -/
theorem UnifyStep.type_ne_bottom (hW : W.Sound) {n : Nat} (hn : n < W.size)
    (htype : W.type (W.rep n) ≠ .bottom) : W'.type (W'.rep n) ≠ .bottom := by
  cases hs with
  | @absorb _ left right survivor absorbed type _ hreps hne htype' hbottom hcovered hunion htasks =>
    by_cases hmem : W.rep n = survivor ∨ W.rep n = absorbed
    · rw [hunion.rep_of_mem hmem, hunion.type_self]
      exact hbottom
    · rw [not_or] at hmem
      rw [hunion.rep_of_ne hmem.2, hunion.type_eq hmem.1 hmem.2]
      exact htype
  | @complete _ left right root type κ hne htype' hbottom hproto hmissed himport =>
    rw [himport.rep_eq]
    by_cases hfirst : W.rep n = W.rep left
    · rw [hfirst, himport.type_self]
      exact hbottom
    · rw [himport.type_eq (hW.rep_lt hn) hfirst]
      exact htype
  | gained hnone hgain =>
    rw [hgain.rep_eq, hgain.type_eq]
    exact htype
  | met | merged | shared | resume => exact htype

/-- A class with edges stays one with edges. -/
theorem UnifyStep.hasEdges (hW : W.Sound) {n : NodeId} (hn : n < W.size)
    (h : W.HasEdges (W.rep n)) : W'.HasEdges (W'.rep n) := by
  cases hs with
  | @absorb _ left right survivor absorbed type _ hreps hne htype hbottom hcovered hunion htasks =>
    rw [Web.HasEdges, hunion.edge_eq]
    by_cases habsorbed : W.rep n = absorbed
    · rw [hunion.rep_of_mem (.inr habsorbed)]
      rcases htasks with ⟨-, hnone⟩ | ⟨incoming, -, hsurvivor, -⟩
      · exact absurd (habsorbed ▸ h) hnone
      · exact hsurvivor
    · rwa [hunion.rep_of_ne habsorbed]
  | complete hne htype hbottom hproto hmissed himport =>
    rwa [Web.HasEdges, himport.rep_eq, himport.edge_eq (hW.rep_lt hn)]
  | gained hnone hgain =>
    obtain ⟨f, m, hm⟩ := h
    refine ⟨f, ?_⟩
    rw [hgain.rep_eq, hgain.edge_eq]
    split
    · exact ⟨_, rfl⟩
    · exact ⟨m, hm⟩
  | met | merged | shared | resume => exact h

end Step

/-! ## The web of a graph -/

namespace Graph

theorem Entangled.web_sound {g : Graph} (h : g.Entangled) : g.web.Sound where
  rep_rep := h.deref_deref
  rep_lt := h.deref_lt
  edge_lt {n _ _} hm := h.currentEdge_lt (n := n) hm
  shape_lt {n _ _} hm := h.sound.value_lt (n := n) hm

/-- Without an episode the structure of the web is the committed one. -/
theorem AtRest.web_rep {g : Graph} (h : g.AtRest) (n : NodeId) : g.web.rep n = n :=
  h.deref_eq n

theorem AtRest.view_eq {g : Graph} (h : g.AtRest) : g.web.view = g.shape := by
  have hrep : g.web.rep = id := funext h.web_rep
  unfold Web.view shape
  congr 1
  · funext n
    exact h.currentType_eq n
  · funext n f
    rw [hrep, Option.map_id]
    exact h.currentEdge_eq n f

theorem Entangled.view_value_eq_some_iff {g : Graph} (h : g.Entangled) {n : NodeId} {f : FeatureId}
    {m : NodeId} : g.web.view.value? n f = some m ↔ ∃ e ∈ g.currentEdges n, e.feature = f ∧
      g.deref e.target = m := by
  refine Option.map_eq_some_iff.trans ⟨fun ⟨k, hk, hm⟩ => ?_, fun ⟨e, he, hf, hm⟩ => ?_⟩
  · exact ⟨⟨f, k⟩, h.mem_currentEdges.2 hk, rfl, hm⟩
  · exact ⟨e.target, hf ▸ h.mem_currentEdges.1 he, hm⟩

/-- A list with a class and whatever its classes lead to has all classes below the first. -/
theorem Entangled.mem_of_reach {g : Graph} (h : g.Entangled) {x : NodeId} (below : List NodeId)
    (hx : x ∈ below) (hclosed : ∀ n ∈ below, ∀ e ∈ g.currentEdges n, g.deref e.target ∈ below)
    {n : NodeId} (hn : g.web.view.Reach x n) : n ∈ below := by
  induction hn with
  | refl => exact hx
  | tail _ hstep ih =>
    obtain ⟨f, hf⟩ := hstep
    obtain ⟨e, he, -, rfl⟩ := h.view_value_eq_some_iff.1 hf
    exact hclosed _ ih e he

/-- To set the type of the survivor and the pointer of the absorbed node unites two classes. -/
theorem Entangled.web_union {g : Graph} (h : g.Entangled) {loser winner : Nat}
    (hd : g.Distinct loser winner) (type : TypeId) :
    ((g.setCurrentType winner type).setForward loser winner).Entangled ∧
      g.web.Union winner loser type
        ((g.setCurrentType winner type).setForward loser winner).web := by
  have htype := h.setCurrentType winner type
  have hd' := hd.setCurrentType winner type
  refine ⟨htype.setForward hd', ?_, ?_, ?_, ?_, ?_, ?_⟩
  · exact (size_setForward ..).trans (size_setCurrentType ..)
  · exact (shape_note ..).trans (shape_note ..)
  · intro n
    have := htype.deref_setForward hd' n
    rwa [h.deref_setCurrentType] at this
  · show Graph.currentType _ winner = type
    rw [currentType_setForward, currentType_setCurrentType _ hd.second_lt, if_pos rfl]
  · intro n hnw hnl
    show Graph.currentType _ n = g.currentType n
    rw [currentType_setForward, currentType_setCurrentType _ hd.second_lt, if_neg (Ne.symm hnw)]
  · funext n f
    exact (currentEdge?_setForward ..).trans (currentEdge?_setCurrentType ..)

theorem Entangled.web_gain {g : Graph} (h : g.Entangled) {n : Nat} {e : Edge} (hn : n < g.size)
    (ht : e.target < g.size) (hnew : g.currentEdge? n e.feature = none) :
    (g.addPending n e).Entangled ∧ g.web.Gain n e (g.addPending n e).web := by
  refine ⟨h.addPending hn ht hnew, size_addPending .., shape_note .., ?_, ?_, ?_⟩
  · funext m
    exact h.deref_addPending hn ht hnew m
  · funext m
    exact currentType_addPending ..
  · exact Entangled.currentEdge?_addPending hn hnew

/-- A copy of a structure comes in as classes of their own. -/
theorem Entangled.web_import {g source g' : Graph} {root first : Nat} {κ : NodeId → NodeId}
    (h : g.Entangled) (hs : source.Sound) (hfirst : first < g.size) (type : TypeId)
    (hc : (g.setCurrentType first type).CopyOf source root g' κ) :
    g'.Entangled ∧ g.web.Import first type source.shape root κ g'.web := by
  have htype := h.setCurrentType first type
  have hpos := htype.sound.generation_pos
  have hsize : (g.setCurrentType first type).size = g.size := size_setCurrentType ..
  have hlt : ∀ {n : Nat}, n < g.size → n < (g.setCurrentType first type).size :=
    fun hn => hsize.symm ▸ hn
  refine ⟨hc.entangled htype hs, ⟨Nat.le_trans (Nat.le_of_eq hsize.symm) hc.size_le, ?_, ?_, ?_,
    ?_, ?_, ?_, ?_, hc.copy_lt, ?_, hc.currentType_copy hpos, hc.currentEdge?_copy hpos,
    hc.type_copy, hc.value?_copy, hc.inj, ?_⟩⟩
  · funext n
    exact (hc.deref_eq htype hs n).trans (h.deref_setCurrentType ..)
  · show g'.currentType first = type
    rw [hc.currentType_eq (hlt hfirst), currentType_setCurrentType _ hfirst, if_pos rfl]
  · intro n hn hne
    show g'.currentType n = g.currentType n
    rw [hc.currentType_eq (hlt hn), currentType_setCurrentType _ hfirst,
      if_neg (Ne.symm hne)]
  · intro n hn
    funext f
    exact (hc.currentEdge?_eq (hlt hn) f).trans (currentEdge?_setCurrentType ..)
  · intro n hn
    exact (hc.graph_extends.type_eq (hlt hn)).trans (type_note ..)
  · intro n hn
    funext f
    exact (hc.graph_extends.value_eq (hlt hn) f).trans (value?_note ..)
  · intro n hn
    exact Nat.le_trans (Nat.le_of_eq hsize.symm) (hc.le_copy hn)
  · intro n hn
    refine (hc.deref_eq htype hs _).trans (deref_of_forward_none ?_)
    rw [forward?, slots_of_le hpos (hc.le_copy hn)]
    rfl
  · intro k hk hlt
    exact hc.surj (Nat.le_trans (Nat.le_of_eq hsize) hk) hlt

/-- Where no feature is among committed and pending edges both, the web says all that there is. -/
theorem Entangled.shape_view {g : Graph} (h : g.Entangled) : g.view.shape = g.web.view := by
  unfold view Layout.shape web Web.view
  congr 1
  funext n f
  rw [Edges.target?_mapTargets, h.target?_currentEdges]

theorem Entangled.reach_view_iff {g : Graph} (h : g.Entangled) {x n : NodeId} :
    g.view.Reach x n ↔ g.web.view.Reach x n := by
  rw [← h.shape_view]
  unfold Shape.Reach Layout.Reach
  rw [Layout.step_shape fun _ => Edges.sorted_mapTargets h.sorted_currentEdges _]

theorem Entangled.acyclic_view_iff {g : Graph} (h : g.Entangled) {x : NodeId} :
    g.view.Acyclic x ↔ g.web.view.Acyclic x := by
  rw [← h.shape_view]
  exact (Layout.acyclic_shape_iff fun _ => Edges.sorted_mapTargets h.sorted_currentEdges _).symm

end Graph

/-- The structure that has come about in the episode; the committed one when none is open
(`Graph.AtRest.view_eq`). -/
abbrev Session.current (s : Session) : Shape := s.graph.web.view

end FeatureLogic
