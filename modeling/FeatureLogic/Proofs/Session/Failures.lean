import FeatureLogic.Proofs.Session.Arising

/-!
What the record of failures names after a unification of two nodes has failed. There is an entry
for either side, but not all of them need be for nodes that are left: a failure may be noted at
the copy of a node of a prototype, and the copies are dropped with all else that the unification
made (`Session.logs_of_failure`). All other nodes that are named are still there.
-/

namespace FeatureLogic

/-- All nodes with an entry. -/
def FailureLog.nodes (log : FailureLog) : List NodeId :=
  log.forward.map Prod.fst ++ log.backward.map Prod.fst

/-- The two nodes that a task is about. -/
def UnifyTask.operands : UnifyTask → NodeId × NodeId
  | pair left right | merge left right _ _ | resume left right _ _ => (left, right)

/-- Both nodes of a pair are in the graph. -/
def UnifyTask.Given (size : Nat) (task : UnifyTask) : Prop :=
  task.operands.1 < size ∧ task.operands.2 < size

theorem UnifyTask.Given.mono {size size' : Nat} (hsize : size ≤ size') {task : UnifyTask}
    (h : task.Given size) : task.Given size' :=
  ⟨Nat.lt_of_lt_of_le h.1 hsize, Nat.lt_of_lt_of_le h.2 hsize⟩

namespace Session

/-! ## Records -/

/-- There is a record with entries for either side, all of them for nodes with `P`. -/
def Logs (s : Session) (P : NodeId → Prop) : Prop :=
  ∃ log, s.failures = some log ∧ log.forward ≠ [] ∧ log.backward ≠ [] ∧ ∀ n ∈ log.nodes, P n

section Logs

variable {s : Session} {P Q : NodeId → Prop}

theorem Logs.imp (h : s.Logs P) (hpq : ∀ n, P n → Q n) : s.Logs Q := by
  obtain ⟨log, hlog, hforward, hbackward, hall⟩ := h
  exact ⟨log, hlog, hforward, hbackward, fun n hn => hpq n (hall n hn)⟩

theorem Logs.of_failures_eq {s' : Session} (h : s.Logs P) (heq : s'.failures = s.failures) :
    s'.Logs P := by
  rw [Logs, heq]
  exact h

theorem logs_record {log : FailureLog} (hlog : s.failures = some log) (hall : ∀ n ∈ log.nodes, P n)
    {left right : NodeId} (hleft : P left) (hright : P right) (kind : FailureKind) :
    (s.record left right kind).Logs P := by
  refine ⟨log.add left right kind, congrArg (Option.map _) hlog, List.cons_ne_nil _ _,
    List.cons_ne_nil _ _, fun n hn => ?_⟩
  simp only [FailureLog.nodes, FailureLog.add, List.map_cons, List.cons_append, List.mem_cons,
    List.mem_append] at hn
  rcases hn with rfl | hn | rfl | hn
  · exact hleft
  · exact hall n (List.mem_append_left _ hn)
  · exact hright
  · exact hall n (List.mem_append_right _ hn)

theorem logs_record_of_empty (hlog : s.failures = some .empty) {left right : NodeId}
    (hleft : P left) (hright : P right) (kind : FailureKind) :
    (s.record left right kind).Logs P :=
  logs_record hlog (fun _ hn => absurd hn List.not_mem_nil) hleft hright kind

theorem Logs.record (h : s.Logs P) {left right : NodeId} (hleft : P left) (hright : P right)
    (kind : FailureKind) : (s.record left right kind).Logs P := by
  obtain ⟨log, hlog, -, -, hall⟩ := h
  exact logs_record hlog hall hleft hright kind

theorem Logs.blame (h : s.Logs P) {task : UnifyTask} (hleft : P task.operands.1)
    (hright : P task.operands.2) : (s.blame task).Logs P := by
  cases task with
  | pair left right => exact h
  | merge left right survivor incoming => exact h.record hleft hright _
  | resume left right first second => exact h.record hleft hright _

/-- What is noted on behalf of all that waits is about the nodes that it is about. -/
theorem Logs.blames (h : s.Logs P) {waiting : List UnifyTask}
    (hwaiting : ∀ task ∈ waiting, P task.operands.1 ∧ P task.operands.2) :
    (waiting.foldl Session.blame s).Logs P := by
  induction waiting generalizing s with
  | nil => exact h
  | cons task rest ih =>
    obtain ⟨htask, hrest⟩ := List.forall_mem_cons.1 hwaiting
    exact ih (h.blame htask.1 htask.2) hrest

end Logs

/-! ## What a unification makes -/

/-- The node came about since `s₀`, as the copy of a node of a prototype with features. -/
structure PrototypeCopy (s₀ s : Session) (n : Nat) : Prop where
  new : s₀.graph.size ≤ n
  lt : n < s.graph.size
  copy : ∃ type root m, s₀.grammar.featuredPrototype? type = some root ∧
    s₀.grammar.prototypes.Below root m ∧ s.graph.type n = s₀.grammar.prototypes.type m ∧
    (s.graph.edges n).map Edge.feature = (s₀.grammar.prototypes.edges m).map Edge.feature

theorem PrototypeCopy.extends {s₀ s s' : Session} {n : Nat} (h : PrototypeCopy s₀ s n)
    (hext : s.graph.Extends s'.graph) : PrototypeCopy s₀ s' n where
  new := h.new
  lt := Nat.lt_of_lt_of_le h.lt hext.size_le
  copy := by
    rw [hext.type_eq h.lt, hext.edges_eq h.lt]
    exact h.copy

/-- All that is imported is copied from a prototype. -/
theorem prototypeCopy_of_copyFrom {s₀ s : Session} (hgrammar : s₀.grammar.Rooted) {g : Graph}
    (hsize : s₀.graph.size ≤ g.size) {type : TypeId} {root : NodeId}
    (hproto : s₀.grammar.featuredPrototype? type = some root)
    (hgraph : s.graph = g.copyFrom s₀.grammar.prototypes root) {n : Nat} (hn : g.size ≤ n)
    (hlt : n < s.graph.size) : PrototypeCopy s₀ s n := by
  have hroot := hgrammar.root_lt (Grammar.roots_of_featuredPrototype? hproto).1
  obtain ⟨κ, hκ⟩ := g.copyFrom_spec hgrammar.prototypes hroot
  rw [← hgraph] at hκ
  obtain ⟨m, hm, rfl⟩ := hκ.surj hn hlt
  refine ⟨hsize.trans hn, hlt, type, root, m, hproto, Graph.below_of_reach hm, ?_, ?_⟩
  · simp only [Graph.type, hκ.node hm, Node.fresh]
  · simp only [Graph.edges, hκ.node hm, Node.fresh, Edges.mapTargets, List.map_map]
    rfl

/-! ## One turn -/

section Turn

variable {s s' : Session} {task : UnifyTask} {tasks : List UnifyTask}

/-- What a turn does to the record, to the tasks and to the number of nodes. -/
structure TurnFrame (s : Session) (task : UnifyTask) (s' : Session) (tasks : List UnifyTask) :
    Prop where
  failures_eq : s'.failures = s.failures
  /-- Whatever is not a pair of its own goes on with the same pair. -/
  operands_eq : ∀ t ∈ tasks, t.operands = task.operands ∨ ∃ left right, t = .pair left right
  /-- Only a prototype with features adds nodes. -/
  grows : s'.graph.size = s.graph.size ∨ ∃ (g : Graph) (type : TypeId) (root : NodeId),
    g.size = s.graph.size ∧ s.grammar.featuredPrototype? type = some root ∧
      s'.graph = g.copyFrom s.grammar.prototypes root

theorem Absorbs.turnFrame {left right first second : NodeId} {type : TypeId}
    (h : s.Absorbs left right first second type s' tasks) :
    TurnFrame s (.pair left right) s' tasks := by
  cases h with
  | bare => exact ⟨rfl, List.forall_mem_nil _, .inl (Graph.size_setForward ..)⟩
  | turned =>
    refine ⟨rfl, List.forall_mem_nil _, .inl ?_⟩
    exact (Graph.size_setForward ..).trans (Graph.size_setCurrentType ..)
  | both => exact ⟨rfl, List.forall_mem_singleton.2 (.inl rfl), .inl (Graph.size_setForward ..)⟩

theorem turnFrame (ht : s.unifyTurn task = .next s' tasks) : TurnFrame s task s' tasks := by
  have hturned := s.unifyTurned task
  rw [ht] at hturned
  cases hturned with
  | met | merged => exact ⟨rfl, List.forall_mem_nil _, .inl rfl⟩
  | resumed => exact ⟨rfl, List.forall_mem_singleton.2 (.inr ⟨_, _, rfl⟩), .inl rfl⟩
  | shared =>
    refine ⟨rfl, List.forall_mem_cons.2 ⟨.inr ⟨_, _, rfl⟩, ?_⟩, .inl rfl⟩
    exact List.forall_mem_singleton.2 (.inl rfl)
  | gained => exact ⟨rfl, List.forall_mem_singleton.2 (.inl rfl), .inl (Graph.size_addPending ..)⟩
  | absorbed _ _ _ _ _ habsorbs =>
    obtain ⟨hfailures, hoperands, hgrows⟩ := habsorbs.turnFrame
    exact ⟨hfailures, hoperands, s.size_typed .. ▸ hgrows⟩
  | completed _ _ _ _ _ hroot =>
    refine ⟨rfl, ?_, .inr ⟨_, _, _, s.size_typed .., hroot, rfl⟩⟩
    exact List.forall_mem_cons.2 ⟨.inr ⟨_, _, rfl⟩, List.forall_mem_singleton.2 (.inl rfl)⟩

end Turn

/-! ## Runs -/

/-- What holds while a unification is under way that began in `s₀`: nothing has been recorded, all
tasks are about nodes of the graph, and the new ones are copied from prototypes. -/
structure Tracking (s₀ s : Session) (tasks : List UnifyTask) : Prop where
  linking : Linking s₀ s tasks
  failures_eq : s.failures = s₀.failures
  given : ∀ task ∈ tasks, task.Given s.graph.size
  made : ∀ {n : Nat}, s₀.graph.size ≤ n → n < s.graph.size → PrototypeCopy s₀ s n

theorem keeps_tracking {s₀ : Session} (hgrammar : s₀.grammar.Rooted) :
    Agenda.Keeps unifyTurn (Tracking s₀) := by
  refine ⟨fun {s task waiting s' tasks} h ht => ?_⟩
  have hlinking := (keeps_linking hgrammar).next h.linking ht
  -- the turn on its own, as the first one of a unification that begins here
  have hext : s.graph.Extends s'.graph :=
    ((keeps_linking (hgrammar.learned h.linking.learned)).next
      ⟨.refl _, h.linking.graph, .refl _, h.linking.within⟩ ht).extends_start
  obtain ⟨hfailures, hoperands, hgrows⟩ := turnFrame ht
  obtain ⟨htask, hwaiting⟩ := List.forall_mem_cons.1 h.given
  refine ⟨hlinking, hfailures.trans h.failures_eq, fun t ht => ?_, fun {n} hn hlt => ?_⟩
  · rcases List.mem_append.1 ht with hmem | hmem
    · rcases hoperands t hmem with heq | ⟨left, right, rfl⟩
      · unfold UnifyTask.Given
        rw [heq]
        exact htask.mono hext.size_le
      · exact hlinking.within _ ht
    · exact (hwaiting t hmem).mono hext.size_le
  · rcases Nat.lt_or_ge n s.graph.size with hold | hnew
    · exact (h.made hn hold).extends hext
    · rcases hgrows with heq | ⟨g, type, root, heq, hproto, hgraph⟩
      · exact absurd (heq ▸ hlt) (Nat.not_lt.2 hnew)
      · rw [h.linking.learned.eq] at hproto hgraph
        exact prototypeCopy_of_copyFrom hgrammar (heq ▸ h.linking.extends_start.size_le) hproto
          hgraph (heq ▸ hnew) hlt

section Run

variable {s s₁ : Session} (hs : s.Closed) {a b : Nat} (ha : a < s.graph.size)
  (hb : b < s.graph.size) {budget : Nat}
include hs ha hb

/-- What is new after a unification is copied from prototypes, and only a failure is recorded. -/
theorem tracked_unifyNodes {unified : Bool}
    (h : s.unifyNodes budget a b = some (unified, s₁)) :
    (∀ {n : Nat}, s.graph.size ≤ n → n < s₁.graph.size → PrototypeCopy s s₁ n) ∧
    (unified = true → s₁.failures = s.failures) ∧
    (unified = false → s.failures = some .empty → s₁.Logs (· < s₁.graph.size)) := by
  have hstart : Tracking s s [.pair a b] :=
    ⟨⟨.refl _, hs.graph, .refl _, List.forall_mem_singleton.2 ⟨ha, hb⟩⟩, rfl,
      List.forall_mem_singleton.2 ⟨ha, hb⟩, fun hn hlt => absurd hlt (Nat.not_lt.2 hn)⟩
  unfold unifyNodes at h
  cases hrun : Agenda.run unifyTurn budget s [.pair a b] with
  | spent s₂ waiting =>
    rw [hrun] at h
    cases h
  | done s₂ =>
    rw [hrun] at h
    cases h
    have hdone := (keeps_tracking hs.grammar).done hstart hrun
    exact ⟨hdone.made, fun _ => hdone.failures_eq, nofun⟩
  | halted s₂ answer waiting =>
    rw [hrun] at h
    cases h
    obtain ⟨s₃, task, hlast, ht⟩ := (keeps_tracking hs.grammar).halted hstart hrun
    obtain ⟨left, right, t, u, kind, rfl, rfl⟩ := unifyTurn_halt_eq ht
    obtain ⟨htask, hwaiting⟩ := List.forall_mem_cons.1 hlast.given
    have hgraph := (blame_frame waiting ((s₃.ask fun l => l.unify t u).2.record left right kind)).1
    refine ⟨fun hn hlt => ?_, nofun, fun _ hlog => ?_⟩
    · rw [hgraph] at hlt
      exact (hlast.made hn hlt).extends (hgraph ▸ .refl _)
    · have hclash : ((s₃.ask fun l => l.unify t u).2.record left right kind).Logs
          (· < s₃.graph.size) :=
        logs_record_of_empty (P := (· < s₃.graph.size)) (hlast.failures_eq.trans hlog) htask.1
          htask.2 kind
      rw [hgraph]
      exact hclash.blames hwaiting

end Run

/-! ## Copying out -/

/-- A copy records nothing while it is under way. -/
theorem failures_of_copyTurn {r : Restrictor} {s s' : Session} {task : CopyTask}
    {tasks : List CopyTask} (ht : copyTurn r s task = .next s' tasks) :
    s'.failures = s.failures := by
  cases task with
  | finish n type kept =>
    cases ht
    rfl
  | enter n cursor =>
    simp only [copyTurn] at ht
    split at ht <;> cases ht <;> rfl

/-- A cycle is recorded at a node that was there before the copy. -/
theorem logs_extract {s s' : Session} {root : Nat} (hs : s.graph.Linked)
    (hroot : root < s.graph.size) {r : Restrictor} {e : CycleError}
    (hlog : s.failures = some .empty) (h : s.extract root r = (.error e, s')) : s'.Logs (· < s.graph.size) := by
  have hkeeps : Agenda.Keeps (copyTurn r) fun s₁ tasks =>
      Extracting r s root s₁ tasks ∧ s₁.failures = s.failures :=
    ⟨fun h ht => ⟨(keeps_extracting hs hroot).next h.1 ht, (failures_of_copyTurn ht).trans h.2⟩⟩
  rw [extract_eq hs hroot r (Nat.le_refl _)] at h
  cases hrun : Agenda.run (copyTurn r) s.graph.weight s [.enter root r.start] with
  | done s₁ =>
    rw [hrun] at h
    cases h
  | spent s₁ waiting =>
    rw [hrun] at h
    cases h
  | halted s₁ e₁ waiting =>
    rw [hrun] at h
    cases h
    obtain ⟨s₁, task, ⟨hextracting, hfailures⟩, ht⟩ :=
      hkeeps.halted ⟨extracting_start hs r root r.start, rfl⟩ hrun
    obtain ⟨n, cursor, rfl, -, rfl, rfl⟩ := copyTurn_halt ht
    rw [hextracting.beside.deref_eq hs]
    have hlt := hextracting.visited_lt hs hroot (.inr ⟨_, List.mem_cons_self .., rfl⟩)
    exact logs_record_of_empty (P := (· < s.graph.size)) (hfailures.trans hlog) hlt hlt .cycle

/-! ## Whole unifications -/

/-- The ways to unify two nodes. -/
inductive Attempt
  /-- The result is copied out through a restrictor. -/
  | copied (r : Restrictor)
  /-- The two are asked whether they unify. -/
  | asked
  /-- The result stays entangled with the two. -/
  | entangled

/-- Whether the unification succeeds, and the session afterwards. -/
def Attempt.run (budget : Nat) (s : Session) (a b : NodeId) : Attempt → Option (Bool × Session)
  | copied r => (s.unifyInto budget a b r).map fun (root, s) => (root.isSome, s)
  | asked => s.unifiable budget a b
  | entangled => s.entangle budget a b

section Failure

variable {s s' : Session} {a b budget : Nat}

/-- A unification fails where types clash or at a cycle, and goes back to the nodes there were. -/
theorem Attempt.failure_cases (hs : s.Closed) (ha : a < s.graph.size) (hb : b < s.graph.size)
    {m : Attempt} (h : m.run budget s a b = some (false, s')) :
    s'.graph.size = s.graph.size ∧ ∃ unified s₁, s.unifyNodes budget a b = some (unified, s₁) ∧
      (unified = false ∧ s'.failures = s₁.failures ∨
        ∃ r e s₂, unified = true ∧ s₁.extract a r = (.error e, s₂) ∧
          s'.failures = s₂.failures) := by
  have hsize : ∀ {unified s₁}, s.unifyNodes budget a b = some (unified, s₁) →
      (s₁.abandon s.graph.size).graph.size = s.graph.size := fun h₁ =>
    (Graph.size_truncate ..).trans <| Nat.min_eq_left <|
      ((linking_unifyNodes hs ha hb h₁).2.1.trans (Graph.extends_invalidate _)).size_le
  cases m with
  | asked =>
    obtain ⟨⟨unified, s₁⟩, h₁, heq⟩ := Option.map_eq_some_iff.1 h
    cases heq
    exact ⟨hsize h₁, _, s₁, h₁, .inl ⟨rfl, rfl⟩⟩
  | entangled =>
    obtain ⟨⟨unified, s₁⟩, h₁, heq⟩ := Option.map_eq_some_iff.1 h
    cases heq
    exact ⟨hsize h₁, _, s₁, h₁, .inl ⟨rfl, rfl⟩⟩
  | copied r =>
    obtain ⟨⟨answer, s₃⟩, h₃, heq⟩ := Option.map_eq_some_iff.1 h
    simp only [Prod.mk.injEq, Option.isSome_eq_false_iff, Option.isNone_iff_eq_none] at heq
    obtain ⟨rfl, rfl⟩ := heq
    refine ⟨(leaves_of_unification (c := .nodes a b r) hs ⟨ha, hb⟩ h₃).size_eq rfl, ?_⟩
    obtain ⟨⟨unified, s₂⟩, h₂, heq₂⟩ := Option.map_eq_some_iff.1 h₃
    obtain ⟨⟨unified', s₁⟩, h₁, heq₁⟩ := Option.map_eq_some_iff.1 h₂
    cases unified' with
    | false =>
      cases heq₁
      cases heq₂
      exact ⟨_, s₁, h₁, .inl ⟨rfl, rfl⟩⟩
    | true =>
      cases heq₁
      simp only [if_true, extractOver] at heq₂
      cases hextract : s₁.extract a r with
      | mk outcome s₂ =>
        rw [hextract] at heq₂
        cases outcome with
        | ok copy => cases heq₂
        | error e =>
          cases heq₂
          exact ⟨_, s₁, h₁, .inr ⟨r, e, s₂, rfl, hextract, rfl⟩⟩

/-- Unless it succeeds a unification leaves a record with entries for either side. What is named is
a node of the graph, save for the copies of nodes of prototypes, of which none is left. -/
theorem logs_of_failure (hs : s.Arises) (ha : a < s.graph.size) (hb : b < s.graph.size)
    (hlog : s.failures = some .empty) {m : Attempt} (h : m.run budget s a b = some (false, s')) :
    s'.graph.size = s.graph.size ∧
    ∃ unified s₁, s.unifyNodes budget a b = some (unified, s₁) ∧
      s'.Logs fun n => n < s'.graph.size ↔ ¬ PrototypeCopy s s₁ n := by
  obtain ⟨hsize, unified, s₁, h₁, hcases⟩ := m.failure_cases hs.closed ha hb h
  obtain ⟨hmade, hnothing, hclash⟩ := tracked_unifyNodes hs.closed ha hb h₁
  refine ⟨hsize, unified, s₁, h₁, ?_⟩
  have hlogs : s'.Logs (· < s₁.graph.size) := by
    rcases hcases with ⟨hfailed, heq⟩ | ⟨r, e, s₂, hunified, hextract, heq⟩
    · exact (hclash hfailed hlog).of_failures_eq heq
    · obtain ⟨-, hext, hlinked⟩ := linking_unifyNodes hs.closed ha hb h₁
      have ha₁ := Nat.lt_of_lt_of_le ha hext.size_le
      exact (logs_extract hlinked ha₁ ((hnothing hunified).trans hlog) hextract).of_failures_eq heq
  refine hlogs.imp fun n hn => ?_
  rw [hsize]
  exact ⟨fun hlt hcopy => Nat.not_lt.2 hcopy.new hlt,
    fun hcopy => Nat.not_le.1 fun hle => hcopy (hmade hle hn)⟩

end Failure

/-- A node without edges, and one with a feature whose value clashes with that of the prototype
which both together get; failures are recorded. -/
def clashing : Session :=
  ((ofGrammar featured).mapGraph fun g =>
    (((g.add (.of 1) []).add (.of 2) []).add (.of 5) []).putEdge 1 0 2).recordFailures true

theorem arises_clashing : clashing.Arises := by
  have hnodes := (((Arises.start rooted_featured).add (.of 1)).add (.of 2)).add (.of 5)
  exact (hnodes.move (m := .putEdge 1 0 2) ⟨by decide, trivial⟩ rfl).aside rfl rooted_featured

/-- The unification fails between the copy of a prototype's node and one that is there. -/
theorem exists_run_clashing : ∃ s',
    (Attempt.copied unrestricted).run 20 clashing 0 1 = some (false, s') ∧ s'.graph.size = 3 ∧
      s'.failures.map FailureLog.nodes = some [0, 4, 1, 2] := by
  have hrun : ((Attempt.copied unrestricted).run 20 clashing 0 1).map (fun p =>
      (p.1, p.2.graph.size, p.2.failures.map FailureLog.nodes)) =
        some (false, 3, some [0, 4, 1, 2]) := by
    decide +kernel
  obtain ⟨⟨unified, s'⟩, h, heq⟩ := Option.map_eq_some_iff.1 hrun
  simp only [Prod.mk.injEq] at heq
  obtain ⟨rfl, hsize, hnodes⟩ := heq
  exact ⟨s', h, hsize, hnodes⟩

/-- Four nodes are named of which three are there. -/
theorem logs_of_failure_clashing : ∃ s', clashing.Arises ∧ 0 < clashing.graph.size ∧
    1 < clashing.graph.size ∧ clashing.failures = some .empty ∧
    (Attempt.copied unrestricted).run 20 clashing 0 1 = some (false, s') ∧
    s'.graph.size = clashing.graph.size ∧
    ∃ unified s₁, clashing.unifyNodes 20 0 1 = some (unified, s₁) ∧
      s'.Logs fun n => n < s'.graph.size ↔ ¬ PrototypeCopy clashing s₁ n := by
  obtain ⟨s', h, -, -⟩ := exists_run_clashing
  have hleft : 0 < clashing.graph.size := by decide
  have hright : 1 < clashing.graph.size := by decide
  exact ⟨s', arises_clashing, hleft, hright, rfl, h,
    logs_of_failure arises_clashing hleft hright rfl h⟩

/-- What is named need not be there any more. -/
theorem not_forall_logs_live : ¬ ∀ (s s' : Session) (a b budget : Nat), s.Arises →
    a < s.graph.size → b < s.graph.size → s.failures = some .empty →
    (Attempt.copied unrestricted).run budget s a b = some (false, s') →
    s'.Logs (· < s'.graph.size) := by
  intro hlive
  obtain ⟨s', h, hsize, hnodes⟩ := exists_run_clashing
  obtain ⟨log, hlog, -, -, hall⟩ :=
    hlive clashing s' 0 1 20 arises_clashing (by decide) (by decide) rfl h
  rw [hlog] at hnodes
  have hfour : 4 ∈ log.nodes := by
    rw [Option.some.inj hnodes]
    decide
  exact absurd (hsize ▸ hall 4 hfour) (by decide)

end Session

end FeatureLogic
