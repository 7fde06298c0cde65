import FeatureLogic.Notation.Reader
import FeatureLogic.Proofs.Graph.Linked
import FeatureLogic.Proofs.Lattice.Knowledge

/-!
Reading any text. Whatever the text, reading adds nodes of its own and changes none that was there,
and a text that cannot be read leaves the graph as it was (`Notation.read_spec`).
-/

namespace FeatureLogic.Notation

namespace Reading

/-! ## Turns -/

/-- What a turn that goes on does to the graph and to the nodes in hand. -/
inductive Step (r : Reading) : ReadTask → Reading → List ReadTask → Prop
  /-- A new node is begun, maybe as that of a new coreference. -/
  | opened {r' : Reading} (hgraph : r'.graph = r.graph.add .top [])
    (hcorefs : ∀ {n node : Nat}, r'.corefs[n]? = some node →
      r.corefs[n]? = some node ∨ node = r.graph.size) : Step r .whole r' [.type r.graph.size]
  /-- A known coreference stands for its node. -/
  | known {r' : Reading} {n : Nat} (hgraph : r'.graph = r.graph) (hcorefs : r'.corefs = r.corefs)
    (hvalue : r.corefs[n]? = some r'.value) : Step r .whole r' []
  | typed {r' : Reading} {node : NodeId} {type : TypeId}
    (hgraph : r'.graph = r.graph.setType node type) (htype : type ≠ .bottom)
    (hcorefs : r'.corefs = r.corefs) : Step r (.type node) r' [.features node]
  | closed {r' : Reading} {node : NodeId} (hgraph : r'.graph = r.graph)
    (hcorefs : r'.corefs = r.corefs) (hvalue : r'.value = node) : Step r (.features node) r' []
  | feature {r' : Reading} {node : NodeId} {feature : FeatureId} (hgraph : r'.graph = r.graph)
    (hcorefs : r'.corefs = r.corefs) :
    Step r (.features node) r' [.whole, .attach node feature, .features node]
  | attached {r' : Reading} {node : NodeId} {feature : FeatureId}
    (hgraph : r'.graph = r.graph.putEdge node feature r.value) (hcorefs : r'.corefs = r.corefs)
    (hvalue : r'.value = r.value) : Step r (.attach node feature) r' []

section Turn

variable {r r' : Reading} {names : NameTable} {task : ReadTask} {tasks : List ReadTask}
  {e : SyntaxError}

theorem take_cases (expected : String) (r : Reading)
    (k : Reading → Token → Position → Turn Reading ReadTask SyntaxError) :
    (∃ scanner e, r.take expected k = .halt { r with scanner } e) ∨
      ∃ scanner token position, r.take expected k = k { r with scanner } token position := by
  obtain ⟨graph, lattice, scanner, corefs, value⟩ := r
  simp only [take]
  rcases scanner.next with ⟨_ | _ | ⟨token, position⟩, scanner⟩
  · exact .inl ⟨_, _, rfl⟩
  · exact .inl ⟨_, _, rfl⟩
  · exact .inr ⟨_, _, _, rfl⟩

/-- A structure is begun, or read as a known coreference, or cannot be read. -/
theorem readStructure_cases (r : Reading) :
    (∃ r' tasks, r.readStructure = .next r' tasks ∧ Step r .whole r' tasks) ∨
    ∃ r' e, r.readStructure = .halt r' e ∧
      (r'.graph = r.graph ∨ r'.graph = r.graph.add .top []) := by
  unfold readStructure
  rcases take_cases "`[` or `#`" r _ with ⟨_, e, heq⟩ | ⟨_, token, _, heq⟩ <;> rw [heq]
  · exact .inr ⟨_, e, rfl, .inl rfl⟩
  cases token with
  | openBracket => exact .inl ⟨_, _, rfl, .opened rfl .inl⟩
  | hash =>
    dsimp only
    rcases take_cases "coreference number" _ _ with ⟨_, e, heq⟩ | ⟨_, token, _, heq⟩ <;> rw [heq]
    · exact .inr ⟨_, e, rfl, .inl rfl⟩
    cases token with
    | number n =>
      dsimp only
      cases hknown : r.corefs[n]? with
      | some node => exact .inl ⟨_, _, rfl, .known rfl rfl hknown⟩
      | none =>
        dsimp only
        -- the node of an unknown number is added before its structure is read
        rcases take_cases "`[`" _ _ with ⟨_, e, heq⟩ | ⟨_, token, _, heq⟩ <;> rw [heq]
        · exact .inr ⟨_, e, rfl, .inr rfl⟩
        cases token with
        | openBracket =>
          refine .inl ⟨_, _, rfl, .opened rfl fun {m node} hm => ?_⟩
          simp only [define, newNode, Std.HashMap.getElem?_insert] at hm
          split at hm
          · exact .inr (Option.some.inj hm).symm
          · exact .inl hm
        | _ => exact .inr ⟨_, _, rfl, .inr rfl⟩
    | _ => exact .inr ⟨_, _, rfl, .inl rfl⟩
  | _ => exact .inr ⟨_, _, rfl, .inl rfl⟩

theorem readType_cases (r : Reading) (node : NodeId) :
    (∃ r' tasks, r.readType node = .next r' tasks ∧ Step r (.type node) r' tasks) ∨
    ∃ r' e, r.readType node = .halt r' e ∧ r'.graph = r.graph := by
  unfold readType
  rcases take_cases "type" r _ with ⟨_, e, heq⟩ | ⟨_, token, _, heq⟩ <;> rw [heq]
  · exact .inr ⟨_, e, rfl, rfl⟩
  cases token with
  | number n =>
    refine .inl ⟨_, _, rfl, .typed rfl ?_ rfl⟩
    split <;> exact nofun
  | word name => exact .inl ⟨_, _, rfl, .typed rfl (r.lattice.getD_typeId?_ne_bottom name) rfl⟩
  | quoted name => exact .inl ⟨_, _, rfl, .typed rfl (r.lattice.intern_ne_bottom name) rfl⟩
  | _ => exact .inr ⟨_, _, rfl, rfl⟩

theorem readFeature_cases (names : NameTable) (r : Reading) (node : NodeId) :
    (∃ r' tasks, r.readFeature names node = .next r' tasks ∧ Step r (.features node) r' tasks) ∨
    ∃ r' e, r.readFeature names node = .halt r' e ∧ r'.graph = r.graph := by
  unfold readFeature
  rcases take_cases "feature or `]`" r _ with ⟨_, e, heq⟩ | ⟨_, token, _, heq⟩ <;> rw [heq]
  · exact .inr ⟨_, e, rfl, rfl⟩
  cases token with
  | closeBracket => exact .inl ⟨_, _, rfl, .closed rfl rfl rfl⟩
  | number n =>
    dsimp only
    split
    · exact .inl ⟨_, _, rfl, .feature rfl rfl⟩
    · exact .inr ⟨_, _, rfl, rfl⟩
  | word name =>
    dsimp only
    split
    · exact .inl ⟨_, _, rfl, .feature rfl rfl⟩
    · exact .inr ⟨_, _, rfl, rfl⟩
  | _ => exact .inr ⟨_, _, rfl, rfl⟩

theorem turn_cases (names : NameTable) (r : Reading) (task : ReadTask) :
    (∃ r' tasks, turn names r task = .next r' tasks ∧ Step r task r' tasks) ∨
    ∃ r' e, turn names r task = .halt r' e ∧
      (r'.graph = r.graph ∨ r'.graph = r.graph.add .top []) := by
  cases task with
  | whole => exact r.readStructure_cases
  | type node =>
    refine (r.readType_cases node).imp_right ?_
    rintro ⟨r', e, heq, hgraph⟩
    exact ⟨r', e, heq, .inl hgraph⟩
  | features node =>
    refine (r.readFeature_cases names node).imp_right ?_
    rintro ⟨r', e, heq, hgraph⟩
    exact ⟨r', e, heq, .inl hgraph⟩
  | attach node feature => exact .inl ⟨_, _, rfl, .attached rfl rfl rfl⟩

end Turn

/-! ## The nodes in hand -/

/-- The node that a task works on. -/
def target : ReadTask → Option NodeId
  | .whole => none
  | .type node | .features node | .attach node _ => some node

/-- What holds between two turns of reading into `g`: all nodes in hand are new ones, and the
structure read last is there when a feature waits for it. -/
structure Adding (g : Graph) (r : Reading) (tasks : List ReadTask) : Prop where
  added : g.Added r.graph
  possible : ∀ {n : Nat}, g.size ≤ n → r.graph.type n ≠ .bottom
  coref : ∀ {n node : Nat}, r.corefs[n]? = some node → g.size ≤ node ∧ node < r.graph.size
  task : ∀ {task : ReadTask} {node : Nat}, task ∈ tasks → target task = some node →
    g.size ≤ node ∧ node < r.graph.size
  value : (∀ task ∈ tasks.head?, ∃ node feature, task = .attach node feature) →
    g.size ≤ r.value ∧ r.value < r.graph.size

theorem adding_start (g : Graph) (lattice : Lattice) (scanner : Scanner) :
    Adding g ⟨g, lattice, scanner, {}, 0⟩ [.whole] where
  added := .refl g
  possible hn := by
    rw [Graph.type_of_le hn]
    exact nofun
  coref h := by simp at h
  task ht htarget := by
    rw [List.mem_singleton.1 ht] at htarget
    cases htarget
  value h := by
    obtain ⟨node, feature, heq⟩ := h .whole rfl
    cases heq

section Step

variable {g : Graph} {r r' : Reading} {waiting : List ReadTask}

/-- A new node is in hand. -/
theorem Adding.opened (h : Adding g r (.whole :: waiting))
    (hgraph : r'.graph = r.graph.add .top [])
    (hcorefs : ∀ {n node : Nat}, r'.corefs[n]? = some node →
      r.corefs[n]? = some node ∨ node = r.graph.size) :
    Adding g r' (.type r.graph.size :: waiting) := by
  have hlast : g.size ≤ r.graph.size ∧ r.graph.size < r'.graph.size := by
    rw [hgraph, Graph.size_add]
    exact ⟨h.added.grown.size_le, Nat.lt_succ_self _⟩
  have hmore : ∀ {node : Nat}, g.size ≤ node ∧ node < r.graph.size →
      g.size ≤ node ∧ node < r'.graph.size := fun hn => ⟨hn.1, Nat.lt_trans hn.2 hlast.2⟩
  refine ⟨hgraph ▸ h.added.addBlank .top, fun {n} hn => ?_, fun hm => ?_, fun ht htarget => ?_,
    fun hhead => ?_⟩
  · rw [hgraph, Graph.type_add]
    split
    · exact nofun
    · exact h.possible hn
  · rcases hcorefs hm with hm | rfl
    · exact hmore (h.coref hm)
    · exact hlast
  · rcases List.mem_cons.1 ht with rfl | ht
    · cases htarget
      exact hlast
    · exact hmore (h.task (List.mem_cons_of_mem _ ht) htarget)
  · obtain ⟨node, feature, heq⟩ := hhead _ rfl
    cases heq

/-- The task is done, and the graph is as it was. -/
theorem Adding.read {task : ReadTask} (h : Adding g r (task :: waiting))
    (hgraph : r'.graph = r.graph) (hcorefs : r'.corefs = r.corefs)
    (hvalue : g.size ≤ r'.value ∧ r'.value < r.graph.size) : Adding g r' waiting := by
  refine ⟨?_, fun {n} hn => ?_, ?_, fun ht htarget => ?_, fun _ => ?_⟩ <;> rw [hgraph]
  · exact h.added
  · exact h.possible hn
  · rw [hcorefs]
    exact h.coref
  · exact h.task (List.mem_cons_of_mem _ ht) htarget
  · exact hvalue

theorem Adding.typed {node : Nat} {type : TypeId} (h : Adding g r (.type node :: waiting))
    (hgraph : r'.graph = r.graph.setType node type) (htype : type ≠ .bottom)
    (hcorefs : r'.corefs = r.corefs) : Adding g r' (.features node :: waiting) := by
  have hnode := h.task (List.mem_cons_self ..) rfl
  have hsize : r'.graph.size = r.graph.size := by rw [hgraph, Graph.size_setType]
  refine ⟨hgraph ▸ h.added.setType hnode.1 type, fun {n} hn => ?_, fun hm => ?_,
    fun ht htarget => ?_, fun hhead => ?_⟩
  · rw [hgraph, Graph.type_setType]
    split
    · exact htype
    · exact h.possible hn
  · rw [hsize]
    exact h.coref (hcorefs ▸ hm)
  · rw [hsize]
    rcases List.mem_cons.1 ht with rfl | ht
    · cases htarget
      exact hnode
    · exact h.task (List.mem_cons_of_mem _ ht) htarget
  · obtain ⟨_, _, heq⟩ := hhead _ rfl
    cases heq

/-- A feature asks for its value, which is then attached to the node. -/
theorem Adding.feature {node : Nat} {feature : FeatureId}
    (h : Adding g r (.features node :: waiting)) (hgraph : r'.graph = r.graph)
    (hcorefs : r'.corefs = r.corefs) :
    Adding g r' (.whole :: .attach node feature :: .features node :: waiting) := by
  have hnode := h.task (List.mem_cons_self ..) rfl
  refine ⟨?_, fun {n} hn => ?_, ?_, fun ht htarget => ?_, fun hhead => ?_⟩ <;> try rw [hgraph]
  · exact h.added
  · exact h.possible hn
  · rw [hcorefs]
    exact h.coref
  · simp only [List.mem_cons] at ht
    rcases ht with rfl | rfl | rfl | ht
    · cases htarget
    · cases htarget
      exact hnode
    · cases htarget
      exact hnode
    · exact h.task (List.mem_cons_of_mem _ ht) htarget
  · obtain ⟨_, _, heq⟩ := hhead _ rfl
    cases heq

theorem Adding.attached {node : Nat} {feature : FeatureId}
    (h : Adding g r (.attach node feature :: waiting))
    (hgraph : r'.graph = r.graph.putEdge node feature r.value) (hcorefs : r'.corefs = r.corefs)
    (hvalue : r'.value = r.value) : Adding g r' waiting := by
  have hnode := h.task (List.mem_cons_self ..) rfl
  have hv := h.value fun t ht => by
    cases ht
    exact ⟨_, _, rfl⟩
  have hsize : r'.graph.size = r.graph.size := by rw [hgraph, Graph.size_putEdge]
  refine ⟨hgraph ▸ h.added.putEdge hnode.1 feature hv, fun {n} hn => ?_, fun hm => ?_,
    fun ht htarget => ?_, fun _ => ?_⟩
  · rw [hgraph, Graph.type_putEdge]
    exact h.possible hn
  · rw [hsize]
    exact h.coref (hcorefs ▸ hm)
  · rw [hsize]
    exact h.task (List.mem_cons_of_mem _ ht) htarget
  · rw [hsize, hvalue]
    exact hv

end Step

theorem Adding.step {g : Graph} {r r' : Reading} {task : ReadTask} {waiting tasks : List ReadTask}
    (h : Adding g r (task :: waiting)) (hs : Step r task r' tasks) :
    Adding g r' (tasks ++ waiting) := by
  cases hs with
  | opened hgraph hcorefs => exact h.opened hgraph hcorefs
  | known hgraph hcorefs hvalue => exact h.read hgraph hcorefs (h.coref hvalue)
  | typed hgraph htype hcorefs => exact h.typed hgraph htype hcorefs
  | closed hgraph hcorefs hvalue =>
    exact h.read hgraph hcorefs (hvalue ▸ h.task (List.mem_cons_self ..) rfl)
  | feature hgraph hcorefs => exact h.feature hgraph hcorefs
  | attached hgraph hcorefs hvalue => exact h.attached hgraph hcorefs hvalue

theorem keeps_adding (names : NameTable) (g : Graph) :
    Agenda.Keeps (turn names) (Adding g) := by
  refine ⟨fun {r task waiting r' tasks} h ht => ?_⟩
  rcases turn_cases names r task with ⟨r'', tasks', heq, hs⟩ | ⟨r'', e, heq, -⟩
  · rw [ht] at heq
    cases heq
    exact h.step hs
  · rw [ht] at heq
    cases heq

/-! ## Names -/

/-- What the lattice knows while a text is read is true of the types of `l`. -/
def Knows (l : Lattice) (r : Reading) : Prop :=
  r.lattice.Sound ∧ r.lattice.hierarchy = l.hierarchy

section Knows

variable {l : Lattice} {r : Reading}

theorem Knows.take (h : Knows l r) (expected : String)
    {k : Reading → Token → Position → Turn Reading ReadTask SyntaxError}
    (hk : ∀ {r token position}, Knows l r → Knows l (k r token position).state) :
    Knows l (r.take expected k).state := by
  rcases take_cases expected r k with ⟨_, _, heq⟩ | ⟨_, _, _, heq⟩ <;> rw [heq]
  · exact h
  · exact hk h

theorem Knows.turn (names : NameTable) (task : ReadTask) (h : Knows l r) :
    Knows l (turn names r task).state := by
  cases task with
  | whole =>
    rw [Reading.turn, readStructure]
    refine h.take _ fun {r token position} h => ?_
    cases token with
    | hash =>
      refine h.take _ fun {r token position} h => ?_
      cases token with
      | number n =>
        dsimp only
        split
        · exact h
        · refine Knows.take (r := (r.newNode.define n r.graph.size)) h _ fun {r token position} h => ?_
          cases token <;> exact h
      | _ => exact h
    | _ => exact h
  | type node =>
    rw [Reading.turn, readType]
    refine h.take _ fun {r token position} h => ?_
    cases token with
    | quoted name => exact ⟨h.1.intern name, (Lattice.hierarchy_intern ..).trans h.2⟩
    | _ => exact h
  | features node =>
    rw [Reading.turn, readFeature]
    refine h.take _ fun {r token position} h => ?_
    cases token with
    | number n =>
      dsimp only
      split <;> exact h
    | word name =>
      dsimp only
      split <;> exact h
    | _ => exact h
  | attach node feature => exact h

end Knows

end Reading

/-! ## Whole texts -/

/-- What reading into `g` may leave: nodes are added, and the structure read is among them. -/
structure ReadResult.Adds (g : Graph) (result : ReadResult) : Prop where
  added : g.Added result.graph
  /-- No type is read that stands for a contradiction. -/
  possible : ∀ {n : Nat}, g.size ≤ n → result.graph.type n ≠ .bottom
  value : ∀ {node : Nat}, result.outcome = .ok node → g.size ≤ node ∧ node < result.graph.size

theorem ReadResult.Adds.error (g : Graph) (lattice : Lattice) (scanner : Scanner) (e : SyntaxError) :
    ReadResult.Adds g ⟨.error e, g, lattice, scanner⟩ := by
  refine ⟨.refl g, fun {n} hn => ?_, nofun⟩
  rw [Graph.type_of_le hn]
  exact nofun

/-- A structure that was read is a new one. Where none was read, nothing is left of the attempt. -/
theorem read_spec (names : NameTable) (lattice : Lattice) (g : Graph) (scanner : Scanner) :
    (read names lattice g scanner).Adds g ∧
    ∀ e, (read names lattice g scanner).outcome = .error e →
      (read names lattice g scanner).graph = g := by
  have hstart := Reading.adding_start g lattice scanner
  have hkeeps := Reading.keeps_adding names g
  simp only [read]
  cases hrun : Agenda.run (Reading.turn names) (3 * (scanner.bound + 2)) ⟨g, lattice, scanner, {}, 0⟩
      [.whole] with
  | done r =>
    have h := hkeeps.done hstart hrun
    refine ⟨⟨h.added, h.possible, fun heq => ?_⟩, nofun⟩
    cases heq
    exact h.value (by simp)
  | halted r e waiting =>
    obtain ⟨r₁, task, h, ht⟩ := hkeeps.halted hstart hrun
    -- the turn that fails may have added a node, which is dropped with the others
    have hgrown : g.Grown r.graph := by
      rcases Reading.turn_cases names r₁ task with ⟨r₂, tasks, heq, -⟩ | ⟨r₂, e', heq, hgraph⟩
      · rw [ht] at heq
        cases heq
      · rw [ht] at heq
        cases heq
        rcases hgraph with hgraph | hgraph <;> rw [hgraph]
        · exact h.added.grown
        · exact h.added.grown.add ..
    dsimp only
    rw [hgrown.truncate_eq]
    exact ⟨.error .., fun _ _ => rfl⟩
  | spent r waiting =>
    dsimp only
    rw [(hkeeps.spent hstart hrun).added.grown.truncate_eq]
    exact ⟨.error .., fun _ _ => rfl⟩

/-- After a whole text, too, nodes are added at most. -/
theorem adds_parse (names : NameTable) (lattice : Lattice) (g : Graph) (text : String) :
    (parse names lattice g text).Adds g := by
  obtain ⟨h, -⟩ := read_spec names lattice g (.start text)
  rw [parse]
  rcases hread : read names lattice g (.start text) with ⟨e | node, graph, lattice', scanner⟩ <;>
    rw [hread] at h
  · exact h
  · dsimp only
    rcases scanner.next with ⟨_ | _ | _, _⟩
    · exact ⟨h.added, h.possible, nofun⟩
    · exact ⟨h.added, h.possible, h.value⟩
    · exact ⟨h.added, h.possible, nofun⟩

/-- Reading teaches the lattice nothing but names of atoms. -/
theorem sound_read (names : NameTable) {l : Lattice} (hl : l.Sound) (g : Graph) (scanner : Scanner) :
    (read names l g scanner).lattice.Sound ∧
      (read names l g scanner).lattice.hierarchy = l.hierarchy := by
  have hrun := Agenda.state_run (P := Reading.Knows l) (fun task h => h.turn names task)
    (3 * (scanner.bound + 2)) [.whole] (s := ⟨g, l, scanner, {}, 0⟩) ⟨hl, rfl⟩
  unfold read
  dsimp only
  split <;> rename_i heq <;> rw [heq] at hrun <;> exact hrun

theorem sound_parse (names : NameTable) {l : Lattice} (hl : l.Sound) (g : Graph) (text : String) :
    (parse names l g text).lattice.Sound ∧ (parse names l g text).lattice.hierarchy = l.hierarchy := by
  have hread := sound_read names hl g (.start text)
  rw [parse]
  rcases heq : read names l g (.start text) with ⟨e | node, graph, lattice', scanner⟩ <;>
    rw [heq] at hread
  · exact hread
  · dsimp only
    rcases scanner.next with ⟨_ | _ | _, _⟩ <;> exact hread

end FeatureLogic.Notation
