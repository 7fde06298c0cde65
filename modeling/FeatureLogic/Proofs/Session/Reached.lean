import FeatureLogic.Proofs.Notation.Parsing
import FeatureLogic.Proofs.Session.Editing
import FeatureLogic.Proofs.Session.Stamps
import FeatureLogic.Proofs.Unify.Outcome

/-!
What can happen to a session. A session is reached from one without nodes by calls that end the
episode (`Session.Call`), by unifications that leave it open, by reading, copying and editing
(`Session.Move`), and by what else leaves the graph alone. All that a call and an operation can do is
said once (`Session.Call.effect`, `Session.Move.effect`), and what they keep is read off it. Nothing
makes a note of an episode to come.
-/

namespace FeatureLogic.Session

/-! ## Calls -/

/-- The calls that end the episode. -/
inductive Call
  | unifyInto (budget : Nat) (left right : NodeId) (r : Restrictor)
  | unifyArgument (budget : Nat) (active passive : Item) (n : Nat) (r : Restrictor)
  | unifiable (budget : Nat) (left right : NodeId)
  | extract (root : NodeId) (r : Restrictor)
  | subsumes (general specific : NodeId)
  | relate (a b : NodeId)
  | equal (a b : NodeId)
  | cyclic (root : NodeId)
  | sharedCount (root : NodeId)
  | rigidCount (root : NodeId)

/-- The session after a call, if it comes to an end. -/
def Call.run? (s : Session) : Call → Option Session
  | unifyInto budget left right r => (s.unifyInto budget left right r).map Prod.snd
  | unifyArgument budget active passive n r =>
    (s.unifyArgument budget active passive n r).map Prod.snd
  | unifiable budget left right => (s.unifiable budget left right).map Prod.snd
  | extract root r => some (s.extract root r).2
  | subsumes general specific => some (s.subsumes general specific).2
  | relate a b => some (s.relate a b).2
  | equal a b => some (s.equal a b).2
  | cyclic root => some (s.cyclic root).2
  | sharedCount root => some (s.sharedCount root).2
  | rigidCount root => some (s.rigidCount root).2

/-- The nodes that a call is about. -/
def Call.operands : Call → List NodeId
  | unifyInto _ left right _ | unifiable _ left right => [left, right]
  | unifyArgument _ active passive _ _ => [active.root, passive.root]
  | extract root _ | cyclic root | sharedCount root | rigidCount root => [root]
  | subsumes a b | relate a b | equal a b => [a, b]

/-- The call is about an argument that is not there. -/
def Call.LacksArgument (s : Session) : Call → Prop
  | unifyArgument _ active _ n _ => s.argument? active n = none
  | _ => False

theorem Call.eq_of_lacksArgument {s s' : Session} {c : Call} (hc : c.LacksArgument s)
    (h : c.run? s = some s') : s' = s := by
  cases c with
  | unifyArgument budget active passive n r =>
    have hnone : s.argument? active n = none := hc
    simp only [Call.run?, Session.unifyArgument, Session.entangleArgument, hnone] at h
    cases h
    rfl
  | _ => exact hc.elim

/-- A node that is unified is an operand, or an argument of one. -/
def Takes (s : Session) (operands : List NodeId) (n : NodeId) : Prop :=
  n ∈ operands ∨ ∃ active i, s.argument? active i = some n

/-- What a call can do to a session. -/
inductive Call.Effect (s : Session) (c : Call) : Session → Prop
  /-- It finds something out, and its notes are void. -/
  | asks {s' : Session} (h : s.Notes s') : Effect s c s'
  | extracts {root : NodeId} (hroot : root ∈ c.operands) (r : Restrictor) :
    Effect s c (s.extract root r).2
  /-- It unifies two nodes and gives up what comes of it. -/
  | tries {left right : NodeId} (hleft : left ∈ c.operands) (hright : right ∈ c.operands)
    {budget : Nat} {unified : Bool} {s' : Session}
    (h : s.unifiable budget left right = some (unified, s')) : Effect s c s'
  /-- It unifies two nodes and copies a node out, unless the unification fails. -/
  | unifies {left right root : NodeId} (hleft : s.Takes c.operands left)
    (hright : right ∈ c.operands) (hroot : root ∈ c.operands) {budget : Nat} (unified : Bool)
    {s₁ : Session} (h : s.entangle budget left right = some (unified, s₁)) (r : Restrictor) :
    Effect s c (if unified then s₁.extractOver s.graph.size root r else (none, s₁)).2
  /-- There is nothing to unify. -/
  | lacks (h : c.LacksArgument s) : Effect s c s

theorem Call.effect {s s' : Session} {c : Call} (h : c.run? s = some s') : c.Effect s s' := by
  cases c with
  | unifyInto budget left right r =>
    obtain ⟨⟨answer, s₁⟩, h₁, rfl⟩ := Option.map_eq_some_iff.1 h
    obtain ⟨⟨unified, s₂⟩, h₂, heq⟩ := Option.map_eq_some_iff.1 h₁
    rw [← congrArg Prod.snd heq]
    exact .unifies (.inl (by simp [operands])) (by simp [operands]) (by simp [operands]) _ h₂ r
  | unifyArgument budget active passive n r =>
    obtain ⟨⟨item, s₁⟩, h₁, rfl⟩ := Option.map_eq_some_iff.1 h
    obtain ⟨⟨unified, s₂⟩, h₂, heq⟩ := Option.map_eq_some_iff.1 h₁
    cases hargument : s.argument? active n with
    | none =>
      rw [Session.entangleArgument, hargument] at h₂
      cases h₂
      cases heq
      exact .lacks hargument
    | some argument =>
      rw [Session.entangleArgument, hargument] at h₂
      have heffect : (unifyArgument budget active passive n r).Effect s
          (if unified then s₂.extractOver s.graph.size active.root r else (none, s₂)).2 :=
        .unifies (.inr ⟨active, n, hargument⟩) (by simp [operands]) (by simp [operands]) _ h₂ r
      cases unified <;> cases heq <;> exact heffect
  | unifiable budget left right =>
    obtain ⟨⟨unified, s₁⟩, h₁, rfl⟩ := Option.map_eq_some_iff.1 h
    exact .tries (by simp [operands]) (by simp [operands]) h₁
  | extract root r =>
    cases h
    exact .extracts (List.mem_singleton_self root) r
  | subsumes general specific =>
    cases h
    exact .asks (notes_subsumes ..)
  | relate a b =>
    cases h
    exact .asks (notes_relate ..)
  | equal a b =>
    cases h
    exact .asks (notes_equal ..)
  | cyclic root =>
    cases h
    exact .asks (notes_cyclic ..)
  | sharedCount root =>
    cases h
    exact .asks (notes_countRepeated ..)
  | rigidCount root =>
    cases h
    exact .asks (notes_countRepeated ..)

/-! ## Whatever happens -/

/-- The operations that may change the graph. -/
inductive Move
  | call (c : Call)
  | entangle (budget : Nat) (left right : NodeId)
  | entangleArgument (budget : Nat) (active passive : Item) (n : Nat)
  | parse (text : String)
  | read (scanner : Notation.Scanner)
  | importFrom (source : Graph) (root : NodeId)
  | clone (root : NodeId)
  | restrict (root : NodeId) (r : Restrictor)
  | restrictSpecial (root : NodeId) (r : Restrictor)
  | unfill (root : NodeId) (sloppy : Bool)
  | add (type : TypeId)
  | setType (n : NodeId) (type : TypeId)
  | putEdge (n : NodeId) (feature : FeatureId) (target : NodeId)
  | dropEdge (n : NodeId) (feature : FeatureId)
  | truncate (size : Nat)
  | compact (first start : Nat)
  | clear
  | invalidate

/-- The session after an operation, if it comes to an end. -/
def Move.run? (s : Session) : Move → Option Session
  | call c => c.run? s
  | entangle budget left right => (s.entangle budget left right).map Prod.snd
  | entangleArgument budget active passive n =>
    (s.entangleArgument budget active passive n).map Prod.snd
  | parse text => some (s.parse text).2
  | read scanner => some (s.read scanner).2.2
  | importFrom source root => some (s.importFrom source root).2
  | clone root => some (s.clone root).2
  | restrict root r => some (s.restrict root r)
  | restrictSpecial root r => some (s.restrictSpecial root r)
  | unfill root sloppy => some (s.unfill root sloppy)
  | add type => some (s.mapGraph (·.add type []))
  | setType n type => some (s.mapGraph (·.setType n type))
  | putEdge n feature target => some (s.mapGraph (·.putEdge n feature target))
  | dropEdge n feature => some (s.mapGraph (·.dropEdge n feature))
  | truncate size => some (s.mapGraph (·.truncate size))
  | compact first start => some (s.mapGraph (·.compact first start))
  | clear => some (s.mapGraph Graph.clear)
  | invalidate => some s.invalidate

/-- The nodes that an operation is about. -/
def Move.operands : Move → List NodeId
  | call c => c.operands
  | entangle _ left right => [left, right]
  | entangleArgument _ active passive _ => [active.root, passive.root]
  | clone root | restrict root _ | restrictSpecial root _ | unfill root _ => [root]
  | setType n _ | dropEdge n _ => [n]
  | putEdge n _ target => [n, target]
  | parse _ | read _ | importFrom _ _ | add _ | truncate _ | compact _ _ | clear | invalidate => []

/-- What an operation can do to a session. -/
inductive Move.Effect (s : Session) : Move → Session → Prop
  | call {c : Call} {s' : Session} (h : c.run? s = some s') : Effect s (.call c) s'
  /-- It unifies two nodes, and they stay entangled if that succeeds. -/
  | unifies {m : Move} {left right : NodeId} (hleft : s.Takes m.operands left)
    (hright : right ∈ m.operands) {budget : Nat} {unified : Bool} {s' : Session}
    (h : s.entangle budget left right = some (unified, s')) : Effect s m s'
  /-- There is nothing to unify. -/
  | lacks {budget : Nat} {active passive : Item} {n : Nat} (h : s.argument? active n = none) :
    Effect s (.entangleArgument budget active passive n) s
  /-- It adds nodes on their own, and may ask the lattice about their types. -/
  | adds {m : Move} {s' : Session} (h : s.graph.Added s'.graph)
    (hgrammar : s.grammar.Learned s'.grammar) : Effect s m s'
  | importFrom (source : Graph) (root : NodeId) :
    Effect s (.importFrom source root) (s.importFrom source root).2
  | clone (root : NodeId) : Effect s (.clone root) (s.clone root).2
  /-- It edits a structure in place. -/
  | edits {m : Move} {root : NodeId} (hroot : root ∈ m.operands) {s' : Session}
    (h : s.Edits root s') : Effect s m s'
  | setType (n : NodeId) (type : TypeId) :
    Effect s (.setType n type) (s.mapGraph (·.setType n type))
  | putEdge (n : NodeId) (feature : FeatureId) (target : NodeId) :
    Effect s (.putEdge n feature target) (s.mapGraph (·.putEdge n feature target))
  | dropEdge (n : NodeId) (feature : FeatureId) :
    Effect s (.dropEdge n feature) (s.mapGraph (·.dropEdge n feature))
  | truncate (size : Nat) : Effect s (.truncate size) (s.mapGraph (·.truncate size))
  | compact (first start : Nat) :
    Effect s (.compact first start) (s.mapGraph (·.compact first start))
  | clear : Effect s .clear (s.mapGraph Graph.clear)
  | invalidate : Effect s .invalidate s.invalidate

theorem Move.effect {s s' : Session} {m : Move} (h : m.run? s = some s') : m.Effect s s' := by
  cases m with
  | call c => exact .call h
  | entangle budget left right =>
    obtain ⟨⟨unified, s₁⟩, h₁, rfl⟩ := Option.map_eq_some_iff.1 h
    exact .unifies (.inl (by simp [operands])) (by simp [operands]) h₁
  | entangleArgument budget active passive n =>
    obtain ⟨⟨unified, s₁⟩, h₁, rfl⟩ := Option.map_eq_some_iff.1 h
    cases hargument : s.argument? active n with
    | none =>
      rw [Session.entangleArgument, hargument] at h₁
      cases h₁
      exact .lacks hargument
    | some argument =>
      rw [Session.entangleArgument, hargument] at h₁
      exact .unifies (.inr ⟨active, n, hargument⟩) (by simp [operands]) h₁
  | parse text =>
    cases h
    exact .adds (Notation.adds_parse ..).added
      (Grammar.learned_of_lattice _ fun hl => Notation.sound_parse _ hl _ text)
  | read scanner =>
    cases h
    exact .adds (Notation.read_spec ..).1.added
      (Grammar.learned_of_lattice _ fun hl => Notation.sound_read _ hl _ scanner)
  | add type =>
    cases h
    exact .adds ((Graph.Added.refl s.graph).addBlank type) (.refl _)
  | restrict root r =>
    cases h
    exact .edits (List.mem_singleton_self root) (edits_restrict s root r)
  | restrictSpecial root r =>
    cases h
    exact .edits (List.mem_singleton_self root) (edits_restrictSpecial s root r)
  | unfill root sloppy =>
    cases h
    exact .edits (List.mem_singleton_self root) (edits_unfill s root sloppy)
  | importFrom source root =>
    cases h
    exact .importFrom source root
  | clone root =>
    cases h
    exact .clone root
  | setType n type =>
    cases h
    exact .setType n type
  | putEdge n feature target =>
    cases h
    exact .putEdge n feature target
  | dropEdge n feature =>
    cases h
    exact .dropEdge n feature
  | truncate size =>
    cases h
    exact .truncate size
  | compact first start =>
    cases h
    exact .compact first start
  | clear =>
    cases h
    exact .clear
  | invalidate =>
    cases h
    exact .invalidate

/-- One thing that may happen to a session. -/
inductive Act (s : Session) : Session → Prop
  | move {m : Move} {s' : Session} (h : m.run? s = some s') : Act s s'
  /-- Failures are recorded or not, and the lattice is asked, maybe on behalf of another session. -/
  | aside {s' : Session} (h : s'.graph = s.graph) : Act s s'

/-- The sessions that come about. -/
inductive Reached : Session → Prop
  | start (grammar : Grammar) : Reached (ofGrammar grammar)
  | act {s s' : Session} (h : Reached s) (ha : Act s s') : Reached s'

/-! ## Stamps -/

theorem Lasting.unifyNodes {P : Graph → Prop} (hP : Lasting P) {s s' : Session} (hs : P s.graph)
    {budget : Nat} {left right : NodeId} {unified : Bool}
    (h : s.unifyNodes budget left right = some (unified, s')) : P s'.graph := by
  have hrun := Agenda.state_run (P := fun s : Session => P s.graph)
    (fun task hs => hP.unifyTurn hs task) budget [.pair left right] hs
  unfold Session.unifyNodes at h
  cases hr : Agenda.run Session.unifyTurn budget s [.pair left right] with
  | done s₁ =>
    rw [hr] at h hrun
    cases h
    exact hrun
  | halted s₁ answer waiting =>
    rw [hr] at h hrun
    cases h
    rw [(blame_frame waiting s₁).1]
    exact hrun
  | spent s₁ waiting =>
    rw [hr] at h
    cases h

section Stamped

variable {s s' : Session} (hs : s.graph.Stamped)
include hs

/-- A unification leaves the episode open if it succeeds, and ends it otherwise. -/
theorem stamped_entangle {budget : Nat} {left right : NodeId} {unified : Bool}
    (h : s.entangle budget left right = some (unified, s')) :
    s'.graph.Stamped ∧ (unified = false → s'.AtRest) := by
  obtain ⟨⟨unified', s₁⟩, h₁, heq⟩ := Option.map_eq_some_iff.1 h
  have hs₁ := lasting_stamped.unifyNodes hs h₁
  obtain ⟨hvoid, hrest⟩ := hs₁.invalidate
  cases unified' with
  | true =>
    cases heq
    exact ⟨hs₁, nofun⟩
  | false =>
    cases heq
    exact ⟨hvoid.truncate _, fun _ => hrest.truncate hvoid _⟩

theorem stamped_unifiable {budget : Nat} {left right : NodeId} {unified : Bool}
    (h : s.unifiable budget left right = some (unified, s')) : s'.graph.Stamped ∧ s'.AtRest := by
  obtain ⟨⟨unified', s₁⟩, h₁, heq⟩ := Option.map_eq_some_iff.1 h
  obtain ⟨hvoid, hrest⟩ := (lasting_stamped.unifyNodes hs h₁).invalidate
  cases heq
  exact ⟨hvoid.truncate _, hrest.truncate hvoid _⟩

theorem stamped_extract (root : NodeId) (r : Restrictor) :
    (s.extract root r).2.graph.Stamped ∧ (s.extract root r).2.AtRest := by
  have hrun := Agenda.state_run (P := fun s : Session => s.graph.Stamped)
    (fun task hs => stamped_copyTurn hs r task) (2 * s.graph.weight * s.graph.copyRounds)
    [.enter root r.start] hs
  simp only [extract, Agenda.runRounds_eq_run]
  split <;> rename_i hr <;> rw [hr] at hrun
  · exact hrun.invalidate
  · exact hrun.invalidate
  · exact (hrun.truncate _).invalidate

theorem stamped_extractOver (size : Nat) (root : NodeId) (r : Restrictor) :
    (s.extractOver size root r).2.graph.Stamped ∧ (s.extractOver size root r).2.AtRest := by
  have h := stamped_extract hs root r
  unfold extractOver
  dsimp only
  split <;> rename_i heq <;> rw [heq] at h
  · exact ⟨h.1.compact _ _, h.2.compact _ _⟩
  · exact ⟨h.1.truncate _, h.2.truncate h.1 _⟩

/-- After a call no note counts, unless the call was about an argument that was not there. -/
theorem Call.stamped {c : Call} (h : c.run? s = some s') :
    s'.graph.Stamped ∧ (¬ c.LacksArgument s → s'.AtRest) := by
  have hends : ∀ {s' : Session}, s'.graph.Stamped ∧ s'.AtRest →
      s'.graph.Stamped ∧ (¬ c.LacksArgument s → s'.AtRest) := fun h => ⟨h.1, fun _ => h.2⟩
  cases Call.effect h with
  | asks hnotes => exact hends (hnotes.stamped hs)
  | extracts _ r => exact hends (stamped_extract hs _ r)
  | tries _ _ htried => exact hends (stamped_unifiable hs htried)
  | unifies _ _ _ unified hunified r =>
    obtain ⟨hs₁, hrest⟩ := stamped_entangle hs hunified
    cases unified with
    | true => exact hends (stamped_extractOver hs₁ ..)
    | false => exact hends ⟨hs₁, hrest rfl⟩
  | lacks hlacks => exact ⟨hs, fun hsome => absurd hlacks hsome⟩

theorem Edits.stamped {root : NodeId} (h : s.Edits root s') : s'.graph.Stamped ∧ s'.AtRest := by
  obtain ⟨g, hg, heq⟩ := h.graph
  rw [AtRest, heq]
  exact (hg.stamped hs).invalidate

theorem Move.stamped {m : Move} (h : m.run? s = some s') : s'.graph.Stamped := by
  cases Move.effect h with
  | call h => exact (Call.stamped hs h).1
  | unifies _ _ h => exact (stamped_entangle hs h).1
  | lacks => exact hs
  | adds h => exact h.grown.stamped hs
  | importFrom source root => exact hs.copyWalk ..
  | clone root => exact hs.copyWalk ..
  | edits _ h => exact (Edits.stamped hs h).1
  | setType n type => exact hs.setType ..
  | putEdge n feature target => exact hs.putEdge ..
  | dropEdge n feature => exact hs.dropEdge ..
  | truncate size => exact hs.truncate ..
  | compact first start => exact hs.compact ..
  | clear => exact Graph.stamped_empty
  | invalidate => exact hs.invalidate.1

theorem Act.stamped (h : Act s s') : s'.graph.Stamped := by
  cases h with
  | move h => exact Move.stamped hs h
  | aside h =>
    rw [h]
    exact hs

end Stamped

theorem Reached.stamped {s : Session} (h : Reached s) : s.graph.Stamped := by
  induction h with
  | start grammar => exact Graph.stamped_empty
  | act _ ha ih => exact ha.stamped ih

end FeatureLogic.Session
