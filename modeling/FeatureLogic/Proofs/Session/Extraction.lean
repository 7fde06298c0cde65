import FeatureLogic.Proofs.Graph.Entangled
import FeatureLogic.Proofs.Restrictor.Generalizing
import FeatureLogic.Proofs.Session.Sound
import FeatureLogic.Session.Copy

/-!
Copying out. The walk that copies the structure of an episode gives every node that it comes to one
copy, after the copies of its values; it ends early just on a cycle. For this it is enough that
links lead to nodes (`Graph.Linked`).
-/

open Relation

namespace FeatureLogic

/-! ## Tasks -/

namespace CopyTask

/-- The node that a task is about. -/
def node (g : Graph) : CopyTask → NodeId
  | .enter n _ => g.deref n
  | .finish n _ _ => n

/-- The nodes whose copies a task needs. -/
def needs (g : Graph) : CopyTask → List NodeId
  | .enter _ _ => []
  | .finish _ _ kept => kept.map fun e => g.deref e.target

/-- The node whose copy a task makes. -/
def makes : CopyTask → Option NodeId
  | .enter _ _ => none
  | .finish n _ _ => some n

/-- The copy of a node asks for those of its values first. -/
def asked (r : Restrictor) (cursor : RestrictCursor) (n : NodeId) (type : TypeId)
    (kept : List Edge) : List CopyTask :=
  kept.map (fun e => .enter e.target (r.descend cursor e.feature)) ++ [.finish n type kept]

theorem mem_asked {r : Restrictor} {cursor : RestrictCursor} {n : NodeId} {type : TypeId}
    {kept : List Edge} {task : CopyTask} : task ∈ asked r cursor n type kept ↔
      (∃ e ∈ kept, task = .enter e.target (r.descend cursor e.feature)) ∨
        task = .finish n type kept := by
  simp [asked, eq_comm]

theorem finish_mem_asked (r : Restrictor) (cursor : RestrictCursor) (n : NodeId) (type : TypeId)
    (kept : List Edge) : .finish n type kept ∈ asked r cursor n type kept :=
  mem_asked.2 (.inr rfl)

end CopyTask

/-! ## Marks -/

namespace Graph

/-- The node has a copy. -/
def HasCopy (g : Graph) (n : NodeId) : Prop := ∃ k, g.copyMark n = .copied k

/-- A current edge leads from the first node to one that the second stands for. -/
def Leads (g : Graph) (n m : NodeId) : Prop := ∃ e ∈ g.currentEdges n, g.deref e.target = m

/-- The second graph is the first one with the copy of the node under way. -/
structure Begins (g : Graph) (n : NodeId) (g' : Graph) : Prop where
  blank : g.copyMark n = .blank
  size_eq : g'.size = g.size
  mark : ∀ m, g'.copyMark m = if n = m then .underway else g.copyMark m
  type_eq : ∀ k, g'.type k = g.type k
  edges_eq : ∀ k, g'.edges k = g.edges k

theorem begins {g : Graph} {n : Nat} (hn : n < g.size) (hblank : g.copyMark n = .blank) :
    g.Begins n (g.setCopyMark n .underway) where
  blank := hblank
  size_eq := size_note ..
  mark m := copyMark_setCopyMark m hn .underway
  type_eq _ := type_note ..
  edges_eq _ := edges_note ..

/-- The node had no copy and has none yet. -/
theorem Begins.copied_iff {g g' : Graph} {n m k : NodeId} (h : g.Begins n g') :
    g'.copyMark m = .copied k ↔ g.copyMark m = .copied k := by
  rw [h.mark]
  split
  · rename_i heq
    rw [← heq, h.blank]
    simp
  · rfl

/-- The second graph is the first one with a copy of the node, which was under way. -/
structure GainsCopy (g : Graph) (n : NodeId) (type : TypeId) (edges : List Edge) (g' : Graph) :
    Prop where
  underway : g.copyMark n = .underway
  size_eq : g'.size = g.size + 1
  mark : ∀ m, g'.copyMark m = if n = m then .copied g.size else g.copyMark m
  type_eq : ∀ k, g'.type k = if k = g.size then type else g.type k
  edges_eq : ∀ k, g'.edges k = if k = g.size then edges else g.edges k

theorem gainsCopy {g : Graph} (hg : 0 < g.generation) {n : Nat} (hn : n < g.size)
    (hunder : g.copyMark n = .underway) (type : TypeId) (edges : List Edge) :
    g.GainsCopy n type edges ((g.add type edges).setCopyMark n (.copied g.size)) where
  underway := hunder
  size_eq := by rw [setCopyMark, size_note, size_add]
  mark m := by
    rw [copyMark_setCopyMark, copyMark_add hg]
    rw [size_add]
    exact Nat.lt_succ_of_lt hn
  type_eq k := by rw [setCopyMark, type_note, type_add]
  edges_eq k := by rw [setCopyMark, edges_note, edges_add]

namespace GainsCopy

variable {g g' : Graph} {n : NodeId} {type : TypeId} {edges : List Edge}
  (h : g.GainsCopy n type edges g')
include h

theorem self : g'.copyMark n = .copied g.size := by rw [h.mark, if_pos rfl]

theorem keep {m k : NodeId} (hm : g.copyMark m = .copied k) : g'.copyMark m = .copied k := by
  rw [h.mark, if_neg, hm]
  rintro rfl
  rw [h.underway] at hm
  cases hm

theorem cases {m k : NodeId} (hm : g'.copyMark m = .copied k) :
    (m = n ∧ k = g.size) ∨ g.copyMark m = .copied k := by
  rw [h.mark] at hm
  split at hm
  · rename_i heq
    cases hm
    exact .inl ⟨heq.symm, rfl⟩
  · exact .inr hm

end GainsCopy

end Graph

/-! ## Tasks that wait for others -/

namespace CopyTask

/-- What the second task copies is above what the first one is about, and the first one does not
copy it. -/
def Nested (g : Graph) (t u : CopyTask) : Prop :=
  ∀ n, u.makes = some n → TransGen g.Leads n (t.node g) ∧ t.makes ≠ some n

section Asked

variable {r : Restrictor} {g : Graph} {cursor : RestrictCursor} {n : NodeId} {type : TypeId}
  {kept : List Edge} {waiting : List CopyTask}

theorem ready_asked {seen : NodeId → Prop} (h : Agenda.Ready (fun t => some (t.node g)) (needs g)
    (fun m => seen m ∨ some n = some m) waiting) :
    Agenda.Ready (fun t => some (t.node g)) (needs g) seen
      (asked r cursor n type kept ++ waiting) := by
  rw [asked, List.append_assoc]
  refine Agenda.ready_append (fun t ht => ?_) ⟨fun m hm => ?_, h.mono fun m hm => ?_⟩
  · obtain ⟨e, -, rfl⟩ := List.mem_map.1 ht
    rfl
  · obtain ⟨e, he, rfl⟩ := List.mem_map.1 hm
    exact .inr ⟨_, List.mem_map.2 ⟨e, he, rfl⟩, rfl⟩
  · exact hm.imp_left .inl

theorem nested_asked (hleads : ∀ e ∈ kept, g.Leads n (g.deref e.target))
    (hwaiting : waiting.Pairwise (Nested g))
    (hhead : ∀ u ∈ waiting, ∀ m, u.makes = some m → TransGen g.Leads m n ∧ n ≠ m) :
    (asked r cursor n type kept ++ waiting).Pairwise (Nested g) := by
  rw [asked, List.append_assoc]
  refine List.pairwise_append.2 ⟨List.pairwise_map.2 ?_,
    List.pairwise_cons.2 ⟨fun u hu m hmakes => ?_, hwaiting⟩, fun t ht u hu m hmakes => ?_⟩
  · exact List.pairwise_of_forall fun d e m hmakes => by cases hmakes
  · obtain ⟨hbelow, hne⟩ := hhead u hu m hmakes
    exact ⟨hbelow, fun heq => hne (Option.some.inj heq)⟩
  · obtain ⟨e, he, rfl⟩ := List.mem_map.1 ht
    refine ⟨?_, fun heq => by cases heq⟩
    rcases List.mem_cons.1 hu with rfl | hu
    · cases hmakes
      exact .single (hleads e he)
    · exact (hhead u hu m hmakes).1.tail (hleads e he)

end Asked

end CopyTask

namespace Session

theorem copyOf_of_copied {g : Graph} {n k : NodeId} (h : g.copyMark (g.deref n) = .copied k) :
    copyOf g n = k := by
  rw [copyOf, h]

/-! ## Turns -/

/-- What a copy of a node gets: its type and edges, with what the restrictor leaves of them. -/
structure Kept (r : Restrictor) (g : Graph) (n : NodeId) (type : TypeId) (kept : List Edge) :
    Prop where
  sublist : kept.Sublist (g.currentEdges n)
  whole : r = unrestricted → type = g.currentType n ∧ kept = g.currentEdges n

theorem kept_generalize (r : Restrictor) (g : Graph) (n : NodeId) (cursor : RestrictCursor)
    (l : Lattice) : Kept r g n (r.generalize cursor (g.currentType n) l).1
      ((g.currentEdges n).filter fun e => r.keeps cursor e.feature) where
  sublist := List.filter_sublist
  whole := by
    rintro rfl
    have hkeeps : ∀ f, unrestricted.keeps cursor f = true := by
      intro f
      cases cursor <;> rfl
    refine ⟨by cases cursor <;> rfl, ?_⟩
    simp [hkeeps]

/-- A turn that goes on meets a copy, begins one or ends one. -/
theorem copyTurn_cases {r : Restrictor} {s s' : Session} {task : CopyTask} {tasks : List CopyTask}
    (h : copyTurn r s task = .next s' tasks) :
    (∃ n cursor, task = .enter n cursor ∧ s.graph.HasCopy (s.graph.deref n) ∧ s' = s ∧
      tasks = []) ∨
    (∃ n cursor type kept, task = .enter n cursor ∧
      s.graph.copyMark (s.graph.deref n) = .blank ∧ Kept r s.graph (s.graph.deref n) type kept ∧
      s.grammar.Learned s'.grammar ∧
      s'.graph = s.graph.setCopyMark (s.graph.deref n) .underway ∧
      tasks = CopyTask.asked r cursor (s.graph.deref n) type kept) ∨
    ∃ n type kept, task = .finish n type kept ∧ s'.grammar = s.grammar ∧
      s'.graph = (s.graph.add type (Edges.mapTargets (copyOf s.graph) kept)).setCopyMark n
        (.copied s.graph.size) ∧ tasks = [] := by
  cases task with
  | finish n type kept =>
    cases h
    exact .inr (.inr ⟨n, type, kept, rfl, rfl, rfl, rfl⟩)
  | enter n cursor =>
    unfold copyTurn at h
    cases hm : s.graph.copyMark (s.graph.deref n) with
    | underway =>
      simp only [hm] at h
      cases h
    | copied k =>
      simp only [hm] at h
      cases h
      exact .inl ⟨n, cursor, rfl, ⟨k, hm⟩, rfl, rfl⟩
    | blank =>
      simp only [hm] at h
      cases h
      refine .inr (.inl ⟨n, cursor, _, _, rfl, hm,
        kept_generalize r s.graph _ cursor s.grammar.lattice,
        Grammar.learned_of_lattice _ (r.sound_generalize cursor _), rfl, ?_⟩)
      rw [List.foldr_cons_eq_append]
      rfl

/-- A turn that ends the copy has come to a node whose copy is under way. -/
theorem copyTurn_halt {r : Restrictor} {s s' : Session} {task : CopyTask} {e : CycleError}
    (h : copyTurn r s task = .halt s' e) : ∃ n cursor, task = .enter n cursor ∧
      s.graph.copyMark (s.graph.deref n) = .underway ∧ e = ⟨s.graph.deref n⟩ ∧ s' = s := by
  cases task with
  | finish n type kept => cases h
  | enter n cursor =>
    unfold copyTurn at h
    cases hm : s.graph.copyMark (s.graph.deref n) with
    | underway =>
      simp only [hm] at h
      cases h
      exact ⟨n, cursor, rfl, hm, rfl, rfl⟩
    | copied k =>
      simp only [hm] at h
      cases h
    | blank =>
      simp only [hm] at h
      cases h

/-! ## Besides what was there -/

/-- The second session has the structure of the first one, and besides it only new nodes and marks
of copies. -/
structure Beside (s₀ s : Session) : Prop where
  learned : s₀.grammar.Learned s.grammar
  stamped : s.graph.Stamped
  extends_start : s₀.graph.Extends s.graph
  forward_eq : ∀ n, s.graph.forward? n = s₀.graph.forward? n
  pending_eq : ∀ n, s.graph.pending n = s₀.graph.pending n
  currentType_eq : ∀ {n : Nat}, n < s₀.graph.size → s.graph.currentType n = s₀.graph.currentType n

section Beside

variable {s₀ s s' : Session} (h : Beside s₀ s)
include h

theorem Beside.lt {n : Nat} (hn : n < s₀.graph.size) : n < s.graph.size :=
  Nat.lt_of_lt_of_le hn h.extends_start.size_le

theorem Beside.deref_eq (h₀ : s₀.graph.Linked) (n : NodeId) : s.graph.deref n = s₀.graph.deref n :=
  Graph.deref_of_ends h.stamped.generation_pos ((Graph.ends_congr h.forward_eq).2 (h₀.ends_deref n))

theorem Beside.currentEdges_eq {n : Nat} (hn : n < s₀.graph.size) :
    s.graph.currentEdges n = s₀.graph.currentEdges n := by
  unfold Graph.currentEdges
  rw [h.pending_eq, h.extends_start.edges_eq hn]

theorem Beside.kept {n : Nat} (hn : n < s₀.graph.size) {r : Restrictor} {type : TypeId}
    {kept : List Edge} (hk : Kept r s.graph n type kept) : Kept r s₀.graph n type kept := by
  have hedges := h.currentEdges_eq hn
  refine ⟨hedges ▸ hk.sublist, fun hr => ?_⟩
  rw [← hedges, ← h.currentType_eq hn]
  exact hk.whole hr

theorem Beside.mark (hlearned : s.grammar.Learned s'.grammar) (n : NodeId) (mark : CopyMark)
    (hgraph : s'.graph = s.graph.setCopyMark n mark) : Beside s₀ s' := by
  refine ⟨h.learned.trans hlearned, ?_, ?_, fun m => ?_, fun m => ?_, fun {m} hm => ?_⟩ <;>
    rw [hgraph]
  · exact h.stamped.setCopyMark ..
  · exact h.extends_start.trans (Graph.extends_note ..)
  · exact (Graph.forward?_setCopyMark ..).trans (h.forward_eq m)
  · exact (Graph.pending_setCopyMark ..).trans (h.pending_eq m)
  · exact (Graph.currentType_setCopyMark ..).trans (h.currentType_eq hm)

theorem Beside.add (type : TypeId) (edges : List Edge) :
    Beside s₀ (s.mapGraph (·.add type edges)) where
  learned := h.learned
  stamped := h.stamped.add type edges
  extends_start := h.extends_start.trans (Graph.extends_add ..)
  forward_eq n := (Graph.forward?_add h.stamped.generation_pos ..).trans (h.forward_eq n)
  pending_eq n := (Graph.pending_add h.stamped.generation_pos ..).trans (h.pending_eq n)
  currentType_eq hn := (Graph.currentType_add h.stamped.generation_pos _ _ (h.lt hn)).trans
    (h.currentType_eq hn)

end Beside

/-! ## The copies so far -/

/-- The node has a mark, or a task is about it. -/
def Visited (s₀ s : Session) (tasks : List CopyTask) (n : NodeId) : Prop :=
  s.graph.copyMark n ≠ .blank ∨ ∃ task ∈ tasks, task.node s₀.graph = n

/-- The copy of the first node has an edge to the copy of the second, or will have it. -/
inductive Hands (s₀ s : Session) (tasks : List CopyTask) : NodeId → NodeId → Prop
  | copied {n m k : NodeId} {e : Edge} (hn : s.graph.copyMark n = .copied k)
    (he : e ∈ s.graph.edges k) (hm : s.graph.copyMark m = .copied e.target) : Hands s₀ s tasks n m
  | kept {n : NodeId} {type : TypeId} {kept : List Edge} {e : Edge}
    (ht : .finish n type kept ∈ tasks) (he : e ∈ kept) :
    Hands s₀ s tasks n (s₀.graph.deref e.target)

/-- Where copies stay with their edges and edges that are due come about or stay due. -/
theorem Hands.mono {s₀ s s' : Session} {tasks tasks' : List CopyTask} {i j : NodeId}
    (h : Hands s₀ s tasks i j)
    (hcopied : ∀ {n k}, s.graph.copyMark n = .copied k → s'.graph.copyMark n = .copied k ∧
      s'.graph.edges k = s.graph.edges k)
    (hkept : ∀ {n type kept e}, .finish n type kept ∈ tasks → e ∈ kept →
      Hands s₀ s' tasks' n (s₀.graph.deref e.target)) : Hands s₀ s' tasks' i j := by
  cases h with
  | copied hn he hm => exact .copied (hcopied hn).1 ((hcopied hn).2 ▸ he) (hcopied hm).1
  | kept ht he => exact hkept ht he

/-- What holds between two turns of copying the structure of `s₀` below `root`: every node that is
visited is led to from the root, and every new node is the copy of one that is visited. -/
structure Extracting (r : Restrictor) (s₀ : Session) (root : NodeId) (s : Session)
    (tasks : List CopyTask) : Prop where
  beside : Beside s₀ s
  visited_root : Visited s₀ s tasks (s₀.graph.deref root)
  led : ∀ {n}, Visited s₀ s tasks n → ReflTransGen (Hands s₀ s tasks) (s₀.graph.deref root) n
  finish : ∀ {n type kept}, .finish n type kept ∈ tasks →
    Kept r s₀.graph n type kept ∧ s.graph.copyMark n = .underway
  underway : ∀ {n}, s.graph.copyMark n = .underway → ∃ type kept, .finish n type kept ∈ tasks
  copied : ∀ {n k}, s.graph.copyMark n = .copied k → s₀.graph.size ≤ k ∧ k < s.graph.size
  /-- A copy comes after the copies of its values. -/
  node : ∀ {n k}, s.graph.copyMark n = .copied k → ∃ kept κ,
    Kept r s₀.graph n (s.graph.type k) kept ∧ s.graph.edges k = Edges.mapTargets κ kept ∧
      ∀ e ∈ kept, κ e.target < k ∧
        s.graph.copyMark (s₀.graph.deref e.target) = .copied (κ e.target)
  inj : ∀ {n m k}, s.graph.copyMark n = .copied k → s.graph.copyMark m = .copied k → n = m
  surj : ∀ {k : Nat}, s₀.graph.size ≤ k → k < s.graph.size → ∃ n, s.graph.copyMark n = .copied k
  ready : Agenda.Ready (fun t => some (t.node s₀.graph)) (CopyTask.needs s₀.graph)
    s.graph.HasCopy tasks
  /-- Everything before the end of a copy is below the node that is copied. -/
  nested : tasks.Pairwise (CopyTask.Nested s₀.graph)

section Extracting

variable {r : Restrictor} {s₀ s s' : Session} {root : Nat} {waiting tasks : List CopyTask}

theorem extracting_start (h : s₀.graph.Linked) (r : Restrictor) (root : NodeId)
    (cursor : RestrictCursor) : Extracting r s₀ root s₀ [.enter root cursor] := by
  have hmark : ∀ {n k}, s₀.graph.copyMark n ≠ .copied k := by
    intro n k hk
    rw [h.copyMark_eq] at hk
    cases hk
  refine ⟨⟨.refl _, h.stamped, .refl _, fun _ => rfl, fun _ => rfl, fun _ => rfl⟩,
    .inr ⟨_, List.mem_singleton.2 rfl, rfl⟩, fun hn => ?_, fun ht => ?_, fun hn => ?_,
    fun hn => absurd hn hmark, fun hn => absurd hn hmark, fun hn => absurd hn hmark,
    fun h₁ h₂ => absurd h₂ (Nat.not_lt.2 h₁), ?_, List.pairwise_singleton _ _⟩
  · rcases hn with hn | ⟨task, ht, rfl⟩
    · exact absurd (h.copyMark_eq _) hn
    · rw [List.mem_singleton.1 ht]
      exact ReflTransGen.refl
  · cases List.mem_singleton.1 ht
  · rw [h.copyMark_eq] at hn
    cases hn
  · exact ⟨fun _ h => absurd h List.not_mem_nil, trivial⟩

/-- Edges of copies are those of the nodes that were copied. -/
theorem Extracting.leads (h : Extracting r s₀ root s tasks) {i j : NodeId}
    (hij : Hands s₀ s tasks i j) : s₀.graph.Leads i j := by
  cases hij with
  | copied hi he hj =>
    obtain ⟨kept, κ, hkept, hedges, hall⟩ := h.node hi
    rw [hedges] at he
    obtain ⟨d, hd, -, heq⟩ := Edges.mem_mapTargets.1 he
    exact ⟨d, hkept.sublist.subset hd, h.inj (heq ▸ (hall d hd).2) hj⟩
  | kept ht he => exact ⟨_, (h.finish ht).1.sublist.subset he, rfl⟩

theorem Extracting.visited_lt (h : Extracting r s₀ root s tasks) (h₀ : s₀.graph.Linked)
    (hroot : root < s₀.graph.size) {n : Nat} (hn : Visited s₀ s tasks n) : n < s₀.graph.size := by
  induction h.led hn with
  | refl => exact h₀.deref_lt hroot
  | tail _ hij _ =>
    obtain ⟨e, he, rfl⟩ := h.leads hij
    exact h₀.deref_lt (h₀.currentEdges_lt he)

/-- The node that the next turn is about. -/
theorem Extracting.node_lt {task : CopyTask} (h : Extracting r s₀ root s (task :: waiting))
    (h₀ : s₀.graph.Linked) (hroot : root < s₀.graph.size) : task.node s₀.graph < s.graph.size :=
  h.beside.lt (h.visited_lt h₀ hroot (.inr ⟨task, List.mem_cons_self .., rfl⟩))

theorem Extracting.begins {n : NodeId} {cursor : RestrictCursor}
    (h : Extracting r s₀ root s (.enter n cursor :: waiting)) (h₀ : s₀.graph.Linked)
    (hroot : root < s₀.graph.size) (hn : s.graph.copyMark (s₀.graph.deref n) = .blank) :
    s.graph.Begins (s₀.graph.deref n) (s.graph.setCopyMark (s₀.graph.deref n) .underway) :=
  Graph.begins (h.node_lt h₀ hroot) hn

theorem Extracting.gainsCopy {n : NodeId} {type : TypeId} {kept : List Edge}
    (h : Extracting r s₀ root s (.finish n type kept :: waiting)) (h₀ : s₀.graph.Linked)
    (hroot : root < s₀.graph.size) :
    s.graph.GainsCopy n type (Edges.mapTargets (copyOf s.graph) kept)
      ((s.graph.add type (Edges.mapTargets (copyOf s.graph) kept)).setCopyMark n
        (.copied s.graph.size)) :=
  Graph.gainsCopy h.beside.stamped.generation_pos (h.node_lt h₀ hroot)
    (h.finish (List.mem_cons_self ..)).2 ..

/-- To come to a node that has a copy changes nothing. -/
theorem Extracting.pop {n : NodeId} {cursor : RestrictCursor}
    (h : Extracting r s₀ root s (.enter n cursor :: waiting))
    (hn : s.graph.HasCopy (s₀.graph.deref n)) : Extracting r s₀ root s waiting := by
  have hmark : s.graph.copyMark (s₀.graph.deref n) ≠ .blank := by
    obtain ⟨k, hk⟩ := hn
    simp [hk]
  have hmore : ∀ {m}, Visited s₀ s waiting m → Visited s₀ s (.enter n cursor :: waiting) m :=
    Or.imp_right fun ⟨task, ht, heq⟩ => ⟨task, List.mem_cons_of_mem _ ht, heq⟩
  have hfinish : ∀ {m type kept}, .finish m type kept ∈ CopyTask.enter n cursor :: waiting →
      .finish m type kept ∈ waiting := by
    intro m type kept ht
    rcases List.mem_cons.1 ht with heq | ht
    · cases heq
    · exact ht
  refine { h with
    visited_root := ?_
    led := fun hm => ReflTransGen.mono (fun i j hij => ?_) _ _ (h.led (hmore hm))
    finish := fun ht => h.finish (List.mem_cons_of_mem _ ht)
    underway := fun hm => ?_
    ready := h.ready.2.mono fun m hm => ?_
    nested := h.nested.of_cons }
  · rcases h.visited_root with hm | ⟨task, ht, heq⟩
    · exact .inl hm
    · rcases List.mem_cons.1 ht with rfl | ht
      · exact .inl (heq ▸ hmark)
      · exact .inr ⟨task, ht, heq⟩
  · exact hij.mono (fun hk => ⟨hk, rfl⟩) fun ht he => .kept (hfinish ht) he
  · obtain ⟨type, kept, ht⟩ := h.underway hm
    exact ⟨type, kept, hfinish ht⟩
  · rcases hm with hm | hm
    · exact hm
    · cases hm
      exact hn

section Push

variable {n m : NodeId} {cursor : RestrictCursor} {type : TypeId} {kept : List Edge}

/-- What was led to stays led to. -/
theorem Extracting.led_push (h : Extracting r s₀ root s (.enter n cursor :: waiting))
    (hbegins : s.graph.Begins (s₀.graph.deref n) s'.graph)
    (hm : Visited s₀ s (.enter n cursor :: waiting) m) :
    ReflTransGen (Hands s₀ s' (CopyTask.asked r cursor (s₀.graph.deref n) type kept ++ waiting))
      (s₀.graph.deref root) m := by
  refine ReflTransGen.mono (fun i j hij => ?_) _ _ (h.led hm)
  refine hij.mono (fun hk => ⟨hbegins.copied_iff.2 hk, hbegins.edges_eq _⟩) fun ht he => ?_
  rcases List.mem_cons.1 ht with heq | ht
  · cases heq
  · exact .kept (List.mem_append_right _ ht) he

/-- What is visited now was visited before, or is a value that is to be copied first. -/
theorem visited_push_cases (hbegins : s.graph.Begins (s₀.graph.deref n) s'.graph)
    (hm : Visited s₀ s' (CopyTask.asked r cursor (s₀.graph.deref n) type kept ++ waiting) m) :
    Visited s₀ s (.enter n cursor :: waiting) m ∨ ∃ e ∈ kept, m = s₀.graph.deref e.target := by
  have hhead : Visited s₀ s (.enter n cursor :: waiting) (s₀.graph.deref n) :=
    .inr ⟨_, List.mem_cons_self .., rfl⟩
  rcases hm with hm | ⟨task, ht, rfl⟩
  · rw [hbegins.mark] at hm
    split at hm
    · rename_i heq
      exact .inl (heq ▸ hhead)
    · exact .inl (.inl hm)
  · rcases List.mem_append.1 ht with ht | ht
    · rcases CopyTask.mem_asked.1 ht with ⟨e, he, rfl⟩ | rfl
      · exact .inr ⟨e, he, rfl⟩
      · exact .inl hhead
    · exact .inl (.inr ⟨task, List.mem_cons_of_mem _ ht, rfl⟩)

theorem Extracting.visited_root_push (h : Extracting r s₀ root s (.enter n cursor :: waiting))
    (hbegins : s.graph.Begins (s₀.graph.deref n) s'.graph) :
    Visited s₀ s' (CopyTask.asked r cursor (s₀.graph.deref n) type kept ++ waiting)
      (s₀.graph.deref root) := by
  rcases h.visited_root with hm | ⟨task, ht, heq⟩
  · refine .inl ?_
    rw [hbegins.mark]
    split
    · simp
    · exact hm
  · rcases List.mem_cons.1 ht with rfl | ht
    · exact .inr ⟨_, List.mem_append_left _ (CopyTask.finish_mem_asked ..), heq⟩
    · exact .inr ⟨task, List.mem_append_right _ ht, heq⟩

theorem Extracting.finish_push (h : Extracting r s₀ root s (.enter n cursor :: waiting))
    (hbegins : s.graph.Begins (s₀.graph.deref n) s'.graph)
    (hkept : Kept r s₀.graph (s₀.graph.deref n) type kept) {type' : TypeId} {kept' : List Edge}
    (ht : .finish m type' kept' ∈
      CopyTask.asked r cursor (s₀.graph.deref n) type kept ++ waiting) :
    Kept r s₀.graph m type' kept' ∧ s'.graph.copyMark m = .underway := by
  rcases List.mem_append.1 ht with ht | ht
  · rcases CopyTask.mem_asked.1 ht with ⟨e, -, heq⟩ | heq
    · cases heq
    · cases heq
      exact ⟨hkept, by rw [hbegins.mark, if_pos rfl]⟩
  · obtain ⟨h₁, h₂⟩ := h.finish (List.mem_cons_of_mem _ ht)
    exact ⟨h₁, by rw [hbegins.mark, h₂, ite_self]⟩

theorem Extracting.underway_push (h : Extracting r s₀ root s (.enter n cursor :: waiting))
    (hbegins : s.graph.Begins (s₀.graph.deref n) s'.graph) (hm : s'.graph.copyMark m = .underway) :
    ∃ type' kept', .finish m type' kept' ∈
      CopyTask.asked r cursor (s₀.graph.deref n) type kept ++ waiting := by
  rw [hbegins.mark] at hm
  split at hm
  · rename_i heq
    exact ⟨type, kept, heq ▸ List.mem_append_left _ (CopyTask.finish_mem_asked ..)⟩
  · obtain ⟨type', kept', ht⟩ := h.underway hm
    rcases List.mem_cons.1 ht with heq | ht
    · cases heq
    · exact ⟨type', kept', List.mem_append_right _ ht⟩

/-- A copy that a task will make is under way already, so it is of no node without a mark. -/
theorem Extracting.makes_ne (h : Extracting r s₀ root s (.enter n cursor :: waiting))
    (hn : s.graph.copyMark m = .blank) {u : CopyTask} (hu : u ∈ waiting) : u.makes ≠ some m := by
  intro hmakes
  cases u with
  | enter => cases hmakes
  | finish k type' kept' =>
    cases hmakes
    have hunder := (h.finish (List.mem_cons_of_mem _ hu)).2
    rw [hn] at hunder
    cases hunder

theorem Extracting.nested_push (h : Extracting r s₀ root s (.enter n cursor :: waiting))
    (hn : s.graph.copyMark (s₀.graph.deref n) = .blank)
    (hkept : Kept r s₀.graph (s₀.graph.deref n) type kept) :
    (CopyTask.asked r cursor (s₀.graph.deref n) type kept ++ waiting).Pairwise
      (CopyTask.Nested s₀.graph) := by
  obtain ⟨hhead, hrest⟩ := List.pairwise_cons.1 h.nested
  refine CopyTask.nested_asked (fun e he => ⟨e, hkept.sublist.subset he, rfl⟩) hrest
    fun u hu m hmakes => ⟨(hhead u hu m hmakes).1, ?_⟩
  rintro rfl
  exact h.makes_ne hn hu hmakes

/-- A node without a copy is under way from now on, and its values are copied first. -/
theorem Extracting.push (h : Extracting r s₀ root s (.enter n cursor :: waiting))
    (h₀ : s₀.graph.Linked) (hroot : root < s₀.graph.size)
    (hn : s.graph.copyMark (s₀.graph.deref n) = .blank)
    (hkept : Kept r s₀.graph (s₀.graph.deref n) type kept)
    (hlearned : s.grammar.Learned s'.grammar)
    (hgraph : s'.graph = s.graph.setCopyMark (s₀.graph.deref n) .underway) :
    Extracting r s₀ root s'
      (CopyTask.asked r cursor (s₀.graph.deref n) type kept ++ waiting) := by
  have hhead : Visited s₀ s (.enter n cursor :: waiting) (s₀.graph.deref n) :=
    .inr ⟨_, List.mem_cons_self .., rfl⟩
  have hbegins : s.graph.Begins (s₀.graph.deref n) s'.graph := hgraph ▸ h.begins h₀ hroot hn
  exact {
    beside := h.beside.mark hlearned _ _ hgraph
    visited_root := h.visited_root_push hbegins
    led := fun hm => by
      rcases visited_push_cases hbegins hm with hm | ⟨e, he, rfl⟩
      · exact h.led_push hbegins hm
      · have hdue := List.mem_append_left waiting
          (CopyTask.finish_mem_asked r cursor (s₀.graph.deref n) type kept)
        exact (h.led_push hbegins hhead).tail (.kept hdue he)
    finish := h.finish_push hbegins hkept
    underway := h.underway_push hbegins
    copied := fun hm => by
      rw [hbegins.size_eq]
      exact h.copied (hbegins.copied_iff.1 hm)
    node := fun hm => by
      rw [hbegins.type_eq, hbegins.edges_eq]
      obtain ⟨list, κ, h₁, h₂, h₃⟩ := h.node (hbegins.copied_iff.1 hm)
      exact ⟨list, κ, h₁, h₂, fun e he => ⟨(h₃ e he).1, hbegins.copied_iff.2 (h₃ e he).2⟩⟩
    inj := fun hm hm' => h.inj (hbegins.copied_iff.1 hm) (hbegins.copied_iff.1 hm')
    surj := fun h₁ h₂ => by
      obtain ⟨m, hm⟩ := h.surj h₁ (hbegins.size_eq ▸ h₂)
      exact ⟨m, hbegins.copied_iff.2 hm⟩
    ready := CopyTask.ready_asked (h.ready.2.mono fun m hm =>
      hm.imp_left fun ⟨k, hk⟩ => ⟨k, hbegins.copied_iff.2 hk⟩)
    nested := h.nested_push hn hkept }

end Push

section Finish

variable {n m : NodeId} {type : TypeId} {kept : List Edge}

/-- The values of a node have their copies before the node gets its own. -/
theorem Extracting.values (h : Extracting r s₀ root s (.finish n type kept :: waiting))
    (h₀ : s₀.graph.Linked) {e : Edge} (he : e ∈ kept) :
    s.graph.copyMark (s₀.graph.deref e.target) = .copied (copyOf s.graph e.target) := by
  obtain ⟨k, hk⟩ := h.ready.1 _ (List.mem_map.2 ⟨e, he, rfl⟩)
  rw [hk, copyOf_of_copied (k := k)]
  rw [h.beside.deref_eq h₀]
  exact hk

/-- The next copy is new. -/
theorem Extracting.copied_ne (h : Extracting r s₀ root s tasks) {k : NodeId}
    (hm : s.graph.copyMark m = .copied k) : k ≠ s.graph.size :=
  Nat.ne_of_lt (h.copied hm).2

variable (hgains : s.graph.GainsCopy n type (Edges.mapTargets (copyOf s.graph) kept) s'.graph)
include hgains

theorem Extracting.visited_root_finish
    (h : Extracting r s₀ root s (.finish n type kept :: waiting)) :
    Visited s₀ s' waiting (s₀.graph.deref root) := by
  rcases h.visited_root with hm | ⟨task, ht, heq⟩
  · refine .inl ?_
    rw [hgains.mark]
    split
    · simp
    · exact hm
  · rcases List.mem_cons.1 ht with rfl | ht
    · refine .inl ?_
      rw [← heq]
      show s'.graph.copyMark n ≠ .blank
      simp [hgains.self]
    · exact .inr ⟨task, ht, heq⟩

theorem visited_of_finish (hm : Visited s₀ s' waiting m) :
    Visited s₀ s (.finish n type kept :: waiting) m := by
  rcases hm with hm | ⟨task, ht, rfl⟩
  · rw [hgains.mark] at hm
    split at hm
    · rename_i heq
      exact .inr ⟨_, List.mem_cons_self .., heq⟩
    · exact .inl hm
  · exact .inr ⟨task, List.mem_cons_of_mem _ ht, rfl⟩

/-- The edges that the copy was to have are there now. -/
theorem Extracting.led_finish (h : Extracting r s₀ root s (.finish n type kept :: waiting))
    (h₀ : s₀.graph.Linked) (hm : Visited s₀ s' waiting m) :
    ReflTransGen (Hands s₀ s' waiting) (s₀.graph.deref root) m := by
  refine ReflTransGen.mono (fun i j hij => ?_) _ _ (h.led (visited_of_finish hgains hm))
  refine hij.mono (fun hk => ⟨hgains.keep hk, ?_⟩) fun {_ _ _ e} ht he => ?_
  · rw [hgains.edges_eq, if_neg (h.copied_ne hk)]
  · rcases List.mem_cons.1 ht with heq | ht
    · cases heq
      have hedge : ⟨e.feature, copyOf s.graph e.target⟩ ∈ s'.graph.edges s.graph.size := by
        rw [hgains.edges_eq, if_pos rfl]
        exact Edges.mem_mapTargets.2 ⟨e, he, rfl, rfl⟩
      exact .copied hgains.self hedge (hgains.keep (h.values h₀ he))
    · exact .kept ht he

theorem Extracting.finish_finish (h : Extracting r s₀ root s (.finish n type kept :: waiting))
    {type' : TypeId} {kept' : List Edge} (ht : .finish m type' kept' ∈ waiting) :
    Kept r s₀.graph m type' kept' ∧ s'.graph.copyMark m = .underway := by
  obtain ⟨h₁, h₂⟩ := h.finish (List.mem_cons_of_mem _ ht)
  refine ⟨h₁, ?_⟩
  rw [hgains.mark, if_neg, h₂]
  rintro rfl
  exact ((List.pairwise_cons.1 h.nested).1 _ ht n rfl).2 rfl

theorem Extracting.underway_finish (h : Extracting r s₀ root s (.finish n type kept :: waiting))
    (hm : s'.graph.copyMark m = .underway) : ∃ type' kept', .finish m type' kept' ∈ waiting := by
  rw [hgains.mark] at hm
  split at hm
  · cases hm
  · rename_i hne
    obtain ⟨type', kept', ht⟩ := h.underway hm
    rcases List.mem_cons.1 ht with heq | ht
    · cases heq
      exact absurd rfl hne
    · exact ⟨type', kept', ht⟩

theorem Extracting.node_finish (h : Extracting r s₀ root s (.finish n type kept :: waiting))
    (h₀ : s₀.graph.Linked) {k : NodeId} (hm : s'.graph.copyMark m = .copied k) :
    ∃ list κ, Kept r s₀.graph m (s'.graph.type k) list ∧
      s'.graph.edges k = Edges.mapTargets κ list ∧
      ∀ e ∈ list, κ e.target < k ∧
        s'.graph.copyMark (s₀.graph.deref e.target) = .copied (κ e.target) := by
  rw [hgains.type_eq, hgains.edges_eq]
  rcases hgains.cases hm with ⟨rfl, rfl⟩ | hm
  · rw [if_pos rfl, if_pos rfl]
    exact ⟨kept, copyOf s.graph, (h.finish (List.mem_cons_self ..)).1, rfl,
      fun e he => ⟨(h.copied (h.values h₀ he)).2, hgains.keep (h.values h₀ he)⟩⟩
  · rw [if_neg (h.copied_ne hm), if_neg (h.copied_ne hm)]
    obtain ⟨list, κ, h₁, h₂, h₃⟩ := h.node hm
    exact ⟨list, κ, h₁, h₂, fun e he => ⟨(h₃ e he).1, hgains.keep (h₃ e he).2⟩⟩

theorem Extracting.inj_finish (h : Extracting r s₀ root s (.finish n type kept :: waiting))
    {m' k : NodeId} (hm : s'.graph.copyMark m = .copied k)
    (hm' : s'.graph.copyMark m' = .copied k) : m = m' := by
  rcases hgains.cases hm with ⟨rfl, rfl⟩ | hm <;> rcases hgains.cases hm' with ⟨rfl, heq⟩ | hm'
  · rfl
  · exact absurd rfl (h.copied_ne hm')
  · exact absurd heq (h.copied_ne hm)
  · exact h.inj hm hm'

end Finish

/-- A node gets its copy, when all its values have theirs. -/
theorem Extracting.finished {n : NodeId} {type : TypeId} {kept : List Edge}
    (h : Extracting r s₀ root s (.finish n type kept :: waiting)) (h₀ : s₀.graph.Linked)
    (hroot : root < s₀.graph.size) (hgrammar : s'.grammar = s.grammar)
    (hgraph : s'.graph = (s.graph.add type (Edges.mapTargets (copyOf s.graph) kept)).setCopyMark n
      (.copied s.graph.size)) : Extracting r s₀ root s' waiting := by
  have hgains : s.graph.GainsCopy n type (Edges.mapTargets (copyOf s.graph) kept) s'.graph :=
    hgraph ▸ h.gainsCopy h₀ hroot
  exact {
    beside := (h.beside.add type (Edges.mapTargets (copyOf s.graph) kept)).mark
      (hgrammar ▸ .refl _) n _ hgraph
    visited_root := h.visited_root_finish hgains
    led := h.led_finish hgains h₀
    finish := h.finish_finish hgains
    underway := h.underway_finish hgains
    copied := fun hm => by
      rw [hgains.size_eq]
      rcases hgains.cases hm with ⟨-, rfl⟩ | hm
      · exact ⟨h.beside.extends_start.size_le, Nat.lt_succ_self _⟩
      · exact ⟨(h.copied hm).1, Nat.lt_succ_of_lt (h.copied hm).2⟩
    node := h.node_finish hgains h₀
    inj := h.inj_finish hgains
    surj := fun h₁ h₂ => by
      rw [hgains.size_eq] at h₂
      rcases Nat.lt_succ_iff_lt_or_eq.1 h₂ with hlt | rfl
      · obtain ⟨m, hm⟩ := h.surj h₁ hlt
        exact ⟨m, hgains.keep hm⟩
      · exact ⟨n, hgains.self⟩
    ready := h.ready.2.mono fun m hm => by
      rcases hm with ⟨k, hk⟩ | hm
      · exact ⟨k, hgains.keep hk⟩
      · cases hm
        exact ⟨_, hgains.self⟩
    nested := h.nested.of_cons }

theorem keeps_extracting (h₀ : s₀.graph.Linked) (hroot : root < s₀.graph.size) :
    Agenda.Keeps (copyTurn r) (Extracting r s₀ root) := by
  refine ⟨fun {s task waiting s' tasks} h ht => ?_⟩
  rcases copyTurn_cases ht with ⟨n, cursor, rfl, hn, rfl, rfl⟩ |
    ⟨n, cursor, type, kept, rfl, hn, hkept, hlearned, hgraph, rfl⟩ |
    ⟨n, type, kept, rfl, hgrammar, hgraph, rfl⟩
  · rw [h.beside.deref_eq h₀] at hn
    exact h.pop hn
  · rw [h.beside.deref_eq h₀] at hn hkept hgraph ⊢
    have hlt := h.visited_lt h₀ hroot (.inr ⟨_, List.mem_cons_self .., rfl⟩)
    exact h.push h₀ hroot hn (h.beside.kept hlt hkept) hlearned hgraph
  · exact h.finished h₀ hroot hgrammar hgraph

/-- The walk is done within its bound. -/
theorem run_copyTurn_ne_spent (h₀ : s₀.graph.Linked) (hroot : root < s₀.graph.size)
    (cursor : RestrictCursor) {fuel : Nat} (hfuel : s₀.graph.weight ≤ fuel) (s' : Session)
    (waiting : List CopyTask) :
    Agenda.run (copyTurn r) fuel s₀ [.enter root cursor] ≠ .spent s' waiting := by
  refine (keeps_extracting h₀ hroot).run_ne_spent_of_marks s₀.graph.size
    (fun n => (s₀.graph.currentEdges n).length + 1) (fun s n => s.graph.copyMark n ≠ .blank) ?_
    (extracting_start h₀ r root cursor) ?_ s' waiting
  · intro s task rest s' tasks h ht
    rcases copyTurn_cases ht with ⟨n, cursor, rfl, hn, rfl, rfl⟩ |
      ⟨n, cursor, type, kept, rfl, hn, hkept, -, hgraph, rfl⟩ |
      ⟨n, type, kept, rfl, -, hgraph, rfl⟩
    · exact .inl ⟨rfl, fun _ => Iff.rfl⟩
    · have hlt : s₀.graph.deref n < s₀.graph.size :=
        h.visited_lt h₀ hroot (.inr ⟨_, List.mem_cons_self .., rfl⟩)
      rw [h.beside.deref_eq h₀] at hn hkept hgraph
      refine .inr ⟨s₀.graph.deref n, hlt, fun hne => hne hn, fun m => ?_, ?_⟩
      · rw [hgraph, (h.begins h₀ hroot hn).mark]
        by_cases hm : s₀.graph.deref n = m
        · simp [hm]
        · simp [hm, Ne.symm hm]
      · have := (h.beside.kept hlt hkept).sublist.length_le
        simpa [CopyTask.asked] using this
    · have hunder := (h.finish (List.mem_cons_self ..)).2
      refine .inl ⟨rfl, fun m => ?_⟩
      rw [hgraph, (h.gainsCopy h₀ hroot).mark]
      by_cases hm : n = m
      · subst hm
        simp [hunder]
      · simp [hm]
  · have := s₀.graph.leftOver_lt_weight (fun n => (s₀.graph.currentEdges n).length + 1)
      (fun n => s₀.graph.copyMark n ≠ .blank) fun n => by
        have := Graph.Entangled.length_currentEdges_le s₀.graph n
        omega
    simp only [List.length_singleton]
    omega

end Extracting

/-- A bound on the turns makes no difference, if it is as large as the graph. -/
theorem extract_eq {s₀ : Session} {root : Nat} (h₀ : s₀.graph.Linked) (hroot : root < s₀.graph.size)
    (r : Restrictor) {fuel : Nat} (hfuel : s₀.graph.weight ≤ fuel) :
    s₀.extract root r = match Agenda.run (copyTurn r) fuel s₀ [.enter root r.start] with
      | .done s | .spent s _ => (.ok (copyOf s.graph root), s.invalidate)
      | .halted s e _ => (.error e, (s.record e.node e.node .cycle).mapGraph fun g =>
          (g.truncate s₀.graph.size).invalidate) := by
  have hbound := s₀.graph.weight_le_copyRounds
  rw [Agenda.run_eq_run (run_copyTurn_ne_spent h₀ hroot r.start hfuel)
    (run_copyTurn_ne_spent h₀ hroot r.start hbound)]
  rw [← Agenda.runRounds_eq_run]
  rfl

/-- Walks of two copies that are in step end both with a copy, in related sessions, or both without
one. -/
theorem extract_of_inStep {r r' : Restrictor} {s₀ t₀ : Session} {x y : Nat}
    {R : Session → List CopyTask → Session → List CopyTask → Prop} (hs : s₀.graph.Linked)
    (ht : t₀.graph.Linked) (hx : x < s₀.graph.size) (hy : y < t₀.graph.size)
    (hstep : Agenda.InStep (copyTurn r) (copyTurn r') R)
    (hstart : R s₀ [.enter x r.start] t₀ [.enter y r'.start]) :
    (∃ s t, R s [] t [] ∧ s₀.extract x r = (.ok (copyOf s.graph x), s.invalidate) ∧
      t₀.extract y r' = (.ok (copyOf t.graph y), t.invalidate)) ∨
    ∃ e s' e' t', s₀.extract x r = (.error e, s') ∧ t₀.extract y r' = (.error e', t') := by
  have hne := run_copyTurn_ne_spent (r := r) hs hx r.start (Nat.le_refl _)
  have hends := hstep.run_of_ne_spent hstart hne
    (run_copyTurn_ne_spent ht hy r'.start (Nat.le_refl _))
  rw [extract_eq hs hx r (Nat.le_refl _), extract_eq ht hy r' (Nat.le_refl _)]
  revert hne hends
  generalize Agenda.run (copyTurn r) _ s₀ [.enter x r.start] = ending
  generalize Agenda.run (copyTurn r') _ t₀ [.enter y r'.start] = ending'
  intro hne hends
  cases hends with
  | done h => exact .inl ⟨_, _, h, rfl, rfl⟩
  | halted => exact .inr ⟨_, _, _, _, rfl, rfl⟩
  | spent => exact absurd rfl (hne _ _)

/-- A copy of all that is below the root is made, or the copy is found under way once more. -/
theorem extract_cases {s₀ : Session} {root : Nat} (h₀ : s₀.graph.Linked)
    (hroot : root < s₀.graph.size) (r : Restrictor) :
    (∃ s, Extracting r s₀ root s [] ∧
      s₀.extract root r = (.ok (copyOf s.graph root), s.invalidate)) ∨
    ∃ s n cursor waiting e, Extracting r s₀ root s (.enter n cursor :: waiting) ∧
      s.graph.copyMark (s₀.graph.deref n) = .underway ∧
      s₀.extract root r = (.error e, (s.record e.node e.node .cycle).mapGraph fun g =>
        (g.truncate s₀.graph.size).invalidate) := by
  have hstart := extracting_start h₀ r root r.start
  have hfuel : s₀.graph.weight ≤ s₀.graph.weight := Nat.le_refl _
  rw [extract_eq h₀ hroot r hfuel]
  cases hrun : Agenda.run (copyTurn r) s₀.graph.weight s₀ [.enter root r.start] with
  | spent s waiting => exact absurd hrun (run_copyTurn_ne_spent h₀ hroot _ hfuel s waiting)
  | done s => exact .inl ⟨s, (keeps_extracting h₀ hroot).done hstart hrun, rfl⟩
  | halted s e waiting =>
    obtain ⟨s, task, h, ht⟩ := (keeps_extracting h₀ hroot).halted hstart hrun
    obtain ⟨n, cursor, rfl, hn, -, rfl⟩ := copyTurn_halt ht
    rw [h.beside.deref_eq h₀] at hn
    exact .inr ⟨_, n, cursor, waiting, e, h, hn, rfl⟩

end Session

end FeatureLogic
