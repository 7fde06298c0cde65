import FeatureLogic.Proofs.Notation.Printing
import FeatureLogic.Proofs.Notation.Reading
import FeatureLogic.Proofs.Unify.Web

/-!
Reading what was printed. Printer and reader go through a structure in the same order: what the
printer adds for a node is what the reader takes for it, and the two keep in step about which nodes
have which numbers (`Matching`). So the nodes read are those printed, with the same types and
values (`Scene.exists_read`).
-/

open Relation

namespace FeatureLogic.Notation

namespace Scene

/-- A structure whose text can be read: types and features have names, and the names are words. -/
structure Legible (s : Scene) (root : Nat) : Prop extends s.Sound root where
  ordered : s.graph.Ordered
  size_lt : s.graph.size < 2 ^ 32
  atomsApart : s.lattice.AtomsApart
  readable_type : ∀ name ∈ s.lattice.hierarchy.names.toList, Readable name
  readable_feature : ∀ name ∈ s.names.toList, Readable name
  hasType : ∀ {n}, s.graph.view.Reach (s.graph.deref root) n →
    s.lattice.HasType (s.graph.currentType n)
  feature_lt : ∀ {n} {e : Edge}, s.graph.view.Reach (s.graph.deref root) n →
    e ∈ s.graph.currentEdges n → e.feature < s.names.size

theorem Legible.entangled {s : Scene} {root : Nat} (h : s.Legible root) : s.graph.Entangled :=
  h.graph.entangled h.ordered

end Scene

/-! ## What is written -/

/-- A text that ends the word before it. -/
def Delimited (cs : List Char) : Prop := ∃ c rest, cs = c :: rest ∧ Cursor.isWordChar c = false

theorem Delimited.endsWord {cs : List Char} (h : Delimited cs) (rest : List Char) :
    EndsWord (cs ++ rest) := by
  obtain ⟨c, cs, rfl, hc⟩ := h
  intro d hd
  cases hd
  exact hc

/-- Doing `tasks` before `waiting` adds the text `cs`; then the nodes `seen'` are printed. -/
structure Written (s : Scene) (root : Nat) (seen : NodeId → Prop) (p : Printed)
    (tasks waiting : List PrintTask) (seen' : NodeId → Prop) (p' : Printed) (cs : List Char) :
    Prop where
  leads : ∃ turns, Agenda.Leads s.turn p tasks turns p' ∧
    turns + s.ahead seen' ≤ tasks.length + s.ahead seen
  printing : Printing s root seen' p' waiting
  text_eq : p'.text.toList = p.text.toList ++ cs
  mono : ∀ {n}, seen n → seen' n

section Written

variable {s : Scene} {root : Nat} {seen seen₁ seen₂ : NodeId → Prop} {p p₁ p₂ : Printed}
  {first second waiting : List PrintTask} {cs cs' : List Char}

theorem Written.append (h : Written s root seen p first (second ++ waiting) seen₁ p₁ cs)
    (h' : Written s root seen₁ p₁ second waiting seen₂ p₂ cs') :
    Written s root seen p (first ++ second) waiting seen₂ p₂ (cs ++ cs') where
  leads := by
    obtain ⟨turns, hleads, hturns⟩ := h.leads
    obtain ⟨turns', hleads', hturns'⟩ := h'.leads
    refine ⟨turns + turns', hleads.append hleads', ?_⟩
    rw [List.length_append]
    omega
  printing := h'.printing
  text_eq := by rw [h'.text_eq, h.text_eq, List.append_assoc]
  mono hn := h'.mono (h.mono hn)

/-- A task that prints no new node. -/
theorem written_of_next {task : PrintTask} {text : String}
    (h : Printing s root seen p (task :: waiting))
    (ht : s.turn p task = .next { p with text := p.text ++ text } []) :
    Written s root seen p [task] waiting seen { p with text := p.text ++ text } text.toList where
  leads := ⟨1, Agenda.leads_of_next ht (Agenda.leads_nil _), Nat.le_refl _⟩
  printing := h.drop _
  text_eq := String.toList_append ..
  mono hn := hn

end Written

/-! ## Printer and reader in step -/

/-- What the reader has of the nodes that are printed: a node for each, and some of its edges. -/
structure Track where
  copy : NodeId → NodeId
  edges : NodeId → List Edge

namespace Track

/-- The edges of a node that have been read. -/
def setEdges (t : Track) (n : NodeId) (edges : List Edge) : Track :=
  { t with edges := Function.update t.edges n edges }

@[simp] theorem copy_setEdges (t : Track) (n : NodeId) (edges : List Edge) :
    (t.setEdges n edges).copy = t.copy := rfl

@[simp] theorem edges_setEdges_self (t : Track) (n : NodeId) (edges : List Edge) :
    (t.setEdges n edges).edges n = edges := Function.update_self ..

theorem edges_setEdges_of_ne (t : Track) {n m : NodeId} (h : m ≠ n) (edges : List Edge) :
    (t.setEdges n edges).edges m = t.edges m := Function.update_of_ne h ..

@[simp] theorem setEdges_setEdges (t : Track) (n : NodeId) (edges edges' : List Edge) :
    (t.setEdges n edges).setEdges n edges' = t.setEdges n edges' := by
  rw [setEdges, setEdges, Function.update_idem, setEdges]

theorem setEdges_eq_self (t : Track) (n : NodeId) : t.setEdges n (t.edges n) = t := by
  rw [setEdges, Function.update_eq_self]

/-- A node that is printed and read for the first time. -/
def begin (t : Track) (n copy : NodeId) : Track :=
  ⟨Function.update t.copy n copy, Function.update t.edges n []⟩

@[simp] theorem copy_begin_self (t : Track) (n copy : NodeId) :
    (t.begin n copy).copy n = copy := Function.update_self ..

@[simp] theorem edges_begin_self (t : Track) (n copy : NodeId) :
    (t.begin n copy).edges n = [] := Function.update_self ..

theorem begin_of_ne (t : Track) {n m : NodeId} (h : m ≠ n) (copy : NodeId) :
    (t.begin n copy).copy m = t.copy m ∧ (t.begin n copy).edges m = t.edges m :=
  ⟨Function.update_of_ne h .., Function.update_of_ne h ..⟩

end Track

/-- What holds of printer and reader when they are at the same place. -/
structure Matching (s : Scene) (seen : NodeId → Prop) (p : Printed) (t : Track) (r : Reading) :
    Prop where
  lattice_eq : r.lattice = s.lattice
  graph : s.graph.Extends r.graph
  known : ∀ {n number}, p.numbers.getD n none = some number → r.corefs[number]? = some (t.copy n)
  unknown : ∀ {number}, p.count < number → r.corefs[number]? = none
  copy_lt : ∀ {n}, seen n → t.copy n < r.graph.size
  size_le : ∀ {n}, seen n → s.graph.size ≤ t.copy n
  copy_inj : ∀ {n m}, seen n → seen m → t.copy n = t.copy m → n = m
  type_eq : ∀ {n}, seen n → r.graph.type (t.copy n) = s.graph.currentType n
  value_eq : ∀ {n}, seen n → ∀ f, r.graph.value? (t.copy n) f =
    (Edges.target? f (t.edges n)).map fun m => t.copy (s.graph.deref m)
  target_seen : ∀ {n e}, seen n → e ∈ t.edges n → seen (s.graph.deref e.target)

/-- More nodes are printed and read, each with all its edges; the others are as they were. -/
structure Advance (s : Scene) (seen : NodeId → Prop) (t : Track) (seen' : NodeId → Prop)
    (t' : Track) : Prop where
  copy_eq : ∀ {n}, seen n → t'.copy n = t.copy n
  edges_eq : ∀ {n}, seen n → t'.edges n = t.edges n
  complete : ∀ {n}, seen' n → ¬ seen n → t'.edges n = s.graph.currentEdges n

theorem Advance.refl (s : Scene) (seen : NodeId → Prop) (t : Track) : Advance s seen t seen t :=
  ⟨fun _ => rfl, fun _ => rfl, fun hn hnot => absurd hn hnot⟩

theorem Advance.trans {s : Scene} {seen seen₁ seen₂ : NodeId → Prop} {t t₁ t₂ : Track}
    (h : Advance s seen t seen₁ t₁) (h' : Advance s seen₁ t₁ seen₂ t₂)
    (hmono : ∀ {n}, seen n → seen₁ n) : Advance s seen t seen₂ t₂ where
  copy_eq hn := (h'.copy_eq (hmono hn)).trans (h.copy_eq hn)
  edges_eq hn := (h'.edges_eq (hmono hn)).trans (h.edges_eq hn)
  complete {n} hn hnot := by
    by_cases hseen : seen₁ n
    · exact (h'.edges_eq hseen).trans (h.complete hseen hnot)
    · exact h'.complete hn hseen

theorem Advance.setEdges {s : Scene} {seen seen' : NodeId → Prop} {t t' : Track}
    (h : Advance s seen t seen' t') {n : NodeId} (hn : seen n) (edges : List Edge) :
    Advance s seen (t.setEdges n edges) seen' (t'.setEdges n edges) where
  copy_eq := h.copy_eq
  edges_eq {m} hm := by
    by_cases hmn : m = n
    · rw [hmn, Track.edges_setEdges_self, Track.edges_setEdges_self]
    · rw [Track.edges_setEdges_of_ne _ hmn, Track.edges_setEdges_of_ne _ hmn]
      exact h.edges_eq hm
  complete {m} hm hnot := by
    have hmn : m ≠ n := fun heq => hnot (heq ▸ hn)
    rw [Track.edges_setEdges_of_ne _ hmn]
    exact h.complete hm hnot

theorem advance_begin (s : Scene) {seen : NodeId → Prop} (t : Track) {n : NodeId} (hnew : ¬ seen n)
    (copy : NodeId) : Advance s seen t (fun m => m = n ∨ seen m)
      ((t.begin n copy).setEdges n (s.graph.currentEdges n)) where
  copy_eq {m} hm := by
    have hmn : m ≠ n := fun heq => hnew (heq ▸ hm)
    exact (t.begin_of_ne hmn copy).1
  edges_eq {m} hm := by
    have hmn : m ≠ n := fun heq => hnew (heq ▸ hm)
    rw [Track.edges_setEdges_of_ne _ hmn]
    exact (t.begin_of_ne hmn copy).2
  complete hm hnot := by
    rw [hm.resolve_right hnot, Track.edges_setEdges_self]

namespace Matching

variable {s : Scene} {root : Nat} {seen : NodeId → Prop} {p p' : Printed} {t : Track}
  {r r' : Reading} {n : NodeId} {waiting : List PrintTask}

/-- Only graph, lattice and coreferences of a reader count, and only the numbers of a printer. -/
theorem congr (h : Matching s seen p t r) (hgraph : r'.graph = r.graph)
    (hlattice : r'.lattice = r.lattice) (hcorefs : r'.corefs = r.corefs)
    (hnumbers : p'.numbers = p.numbers) (hcount : p'.count = p.count) :
    Matching s seen p' t r' where
  lattice_eq := hlattice.trans h.lattice_eq
  graph := hgraph ▸ h.graph
  known hn := hcorefs ▸ h.known (hnumbers ▸ hn)
  unknown hn := hcorefs ▸ h.unknown (hcount ▸ hn)
  copy_lt hn := hgraph ▸ h.copy_lt hn
  size_le := h.size_le
  copy_inj := h.copy_inj
  type_eq hn := hgraph ▸ h.type_eq hn
  value_eq hn := hgraph ▸ h.value_eq hn
  target_seen := h.target_seen

section Visit

variable (h : Matching s seen p t r) (hnumber : (p'.numbers = p.numbers ∧ p'.count = p.count ∧
    r'.corefs = r.corefs) ∨
  (p'.numbers = p.numbers.setIfInBounds n (some (p.count + 1)) ∧ p'.count = p.count + 1 ∧
    r'.corefs = r.corefs.insert (p.count + 1) r.graph.size))
include h hnumber

/-- The numbers that are given stand for the copies, that of a new node included. -/
theorem known_visit (hp : Printing s root seen p (.node n :: waiting)) (hnew : ¬ seen n)
    {m : NodeId} {number : Nat} (hm : p'.numbers.getD m none = some number) :
    r'.corefs[number]? = some ((t.begin n r.graph.size).copy m) := by
  -- a number that was given before is not the new one
  have hbefore : ∀ {k}, p.numbers.getD m none = some k →
      r.corefs[k]? = some ((t.begin n r.graph.size).copy m) ∧ p.count + 1 ≠ k := by
    intro k hk
    have hseen : seen m := (hp.numbered.1 (by rw [hk]; rfl)).1
    have hmn : m ≠ n := fun heq => hnew (heq ▸ hseen)
    rw [(t.begin_of_ne hmn _).1]
    exact ⟨h.known hk, fun heq => Nat.not_succ_le_self _ (heq ▸ hp.number_le hk)⟩
  rcases hnumber with ⟨hnumbers, -, hcorefs⟩ | ⟨hnumbers, -, hcorefs⟩
  · rw [hnumbers] at hm
    rw [hcorefs]
    exact (hbefore hm).1
  · rw [hnumbers, getD_setIfInBounds] at hm
    rw [hcorefs, Std.HashMap.getElem?_insert]
    split at hm
    · rename_i heq
      cases hm
      simp [← heq.1]
    · have hne : (p.count + 1 == number) = false := by simpa using (hbefore hm).2
      rw [hne]
      exact (hbefore hm).1

/-- Numbers that are not given yet stand for nothing. -/
theorem unknown_visit {number : Nat} (hlt : p'.count < number) : r'.corefs[number]? = none := by
  rcases hnumber with ⟨-, hcount, hcorefs⟩ | ⟨-, hcount, hcorefs⟩
  · rw [hcorefs]
    exact h.unknown (hcount ▸ hlt)
  · rw [hcorefs, Std.HashMap.getElem?_insert]
    rw [hcount] at hlt
    have hne : (p.count + 1 == number) = false := by simpa using Nat.ne_of_lt hlt
    rw [hne]
    exact h.unknown (Nat.lt_of_succ_lt hlt)

/-- A new node whose type was read, with its number if it has one. -/
theorem visit (hp : Printing s root seen p (.node n :: waiting)) (hnew : ¬ seen n)
    (hgraph : r'.graph = r.graph.add (s.graph.currentType n) [])
    (hlattice : r'.lattice = r.lattice) :
    Matching s (fun m => m = n ∨ seen m) p' (t.begin n r.graph.size) r' := by
  have hne : ∀ {m}, seen m → m ≠ n := fun hm heq => hnew (heq ▸ hm)
  have hcopy : ∀ {m}, seen m → (t.begin n r.graph.size).copy m = t.copy m :=
    fun hm => (t.begin_of_ne (hne hm) _).1
  have hedges : ∀ {m}, seen m → (t.begin n r.graph.size).edges m = t.edges m :=
    fun hm => (t.begin_of_ne (hne hm) _).2
  have hold : ∀ {m}, seen m → t.copy m ≠ r.graph.size := fun hm => Nat.ne_of_lt (h.copy_lt hm)
  exact {
    lattice_eq := hlattice.trans h.lattice_eq
    graph := by
      rw [hgraph]
      exact h.graph.trans (Graph.extends_add ..)
    known := h.known_visit hnumber hp hnew
    unknown := h.unknown_visit hnumber
    copy_lt := by
      rintro m (rfl | hm) <;> rw [hgraph, Graph.size_add]
      · rw [Track.copy_begin_self]
        exact Nat.lt_succ_self _
      · rw [hcopy hm]
        exact Nat.lt_succ_of_lt (h.copy_lt hm)
    size_le := by
      rintro m (rfl | hm)
      · rw [Track.copy_begin_self]
        exact h.graph.size_le
      · rw [hcopy hm]
        exact h.size_le hm
    copy_inj := by
      rintro m m' (rfl | hm) (rfl | hm') heq
      · rfl
      · rw [Track.copy_begin_self, hcopy hm'] at heq
        exact absurd heq.symm (hold hm')
      · rw [Track.copy_begin_self, hcopy hm] at heq
        exact absurd heq (hold hm)
      · rw [hcopy hm, hcopy hm'] at heq
        exact h.copy_inj hm hm' heq
    type_eq := by
      rintro m (rfl | hm) <;> rw [hgraph, Graph.type_add]
      · rw [Track.copy_begin_self, if_pos rfl]
      · rw [hcopy hm, if_neg (hold hm)]
        exact h.type_eq hm
    value_eq := by
      rintro m (rfl | hm) f <;> rw [Graph.value?, hgraph, Graph.edges_add]
      · rw [Track.copy_begin_self, if_pos rfl, Track.edges_begin_self]
        rfl
      · rw [hcopy hm, if_neg (hold hm), hedges hm, ← Graph.value?, h.value_eq hm]
        exact Option.map_congr fun k hk =>
          (hcopy (h.target_seen hm (Edges.mem_of_target? hk))).symm
    target_seen := by
      rintro m e (rfl | hm) he
      · rw [Track.edges_begin_self] at he
        cases he
      · rw [hedges hm] at he
        exact .inr (h.target_seen hm he) }

end Visit

/-- A value that was read. -/
theorem attach (h : Matching s seen p t r) (hs : s.graph.Entangled) (hn : seen n) {e : Edge}
    {rest : List Edge} (he : t.edges n ++ e :: rest = s.graph.currentEdges n)
    (htarget : seen (s.graph.deref e.target))
    (hgraph : r'.graph =
      r.graph.putEdge (t.copy n) e.feature (t.copy (s.graph.deref e.target)))
    (hlattice : r'.lattice = r.lattice) (hcorefs : r'.corefs = r.corefs) :
    Matching s seen p (t.setEdges n (t.edges n ++ [e])) r' where
  lattice_eq := hlattice.trans h.lattice_eq
  graph := by
    rw [hgraph]
    exact h.graph.putEdge (h.size_le hn) ..
  known hm := hcorefs ▸ h.known hm
  unknown hm := hcorefs ▸ h.unknown hm
  copy_lt hm := by
    rw [hgraph, Graph.size_putEdge]
    exact h.copy_lt hm
  size_le := h.size_le
  copy_inj := h.copy_inj
  type_eq hm := by
    rw [hgraph, Graph.type_putEdge]
    exact h.type_eq hm
  value_eq {m} hm f := by
    -- the features before it are smaller, so the node has no value for this one yet
    have hnone : Edges.target? e.feature (t.edges n) = none := by
      have hsorted : Edges.Sorted (t.edges n ++ e :: rest) := he ▸ hs.sorted_currentEdges
      refine Edges.target?_eq_none_iff.2 fun d hd => Nat.ne_of_lt ?_
      exact (List.pairwise_append.1 hsorted).2.2 d hd e (List.mem_cons_self ..)
    rw [hgraph, Graph.value?_putEdge, Track.copy_setEdges, h.value_eq hm]
    by_cases hmn : m = n
    · subst hmn
      rw [Track.edges_setEdges_self, Edges.target?_append, Edges.target?_cons, Edges.target?_nil]
      by_cases hf : e.feature = f
      · subst hf
        simp [hnone, h.copy_lt hm]
      · simp [hf]
    · have hne : t.copy n ≠ t.copy m := fun heq => hmn (h.copy_inj hm hn heq.symm)
      rw [if_neg fun hc => hne hc.1, t.edges_setEdges_of_ne hmn]
  target_seen {m d} hm hd := by
    by_cases hmn : m = n
    · subst hmn
      rw [Track.edges_setEdges_self, List.mem_append, List.mem_singleton] at hd
      rcases hd with hd | rfl
      · exact h.target_seen hm hd
      · exact htarget
    · rw [t.edges_setEdges_of_ne hmn] at hd
      exact h.target_seen hm hd

end Matching

/-! ## Turns of both -/

/-- The reader does its task with the text `cs`, before `rest`, and is with the printer again; what
it read is the node `n`. -/
def TakesUp (s : Scene) (seen : NodeId → Prop) (t : Track) (seen' : NodeId → Prop) (p' : Printed)
    (n : NodeId) (r : Reading) (task : ReadTask) (cs rest : List Char) : Prop :=
  ∃ t' r' turns, Agenda.Leads (Reading.turn s.names) r [task] turns r' ∧ turns ≤ 2 * cs.length ∧
    Matching s seen' p' t' r' ∧ Advance s seen t seen' t' ∧ r'.Before rest ∧ r'.value = t'.copy n

/-- However the printer comes to `n`, what it writes then is read as a structure. -/
def RoundTrip (s : Scene) (root : Nat) (seen : NodeId → Prop) (p : Printed) (n : NodeId) : Prop :=
  ∀ waiting, Printing s root seen p (.node n :: waiting) → ∃ seen' p' cs,
    Written s root seen p [.node n] waiting seen' p' cs ∧ Delimited cs ∧ seen' n ∧
      ∀ {t r before rest}, Matching s seen p t r → r.Before before →
        before = cs ++ rest ∨ before = ' ' :: (cs ++ rest) → EndsWord rest →
          TakesUp s seen t seen' p' n r .whole cs rest

section RoundTrip

variable {s : Scene} {root : Nat} {seen : NodeId → Prop} {p : Printed} {n : NodeId}

/-- A number that was given before stands for its node. -/
theorem roundTrip_known (hs : s.Legible root) {number : Nat} (hshared : s.isShared n = true)
    (hnumber : p.numbers.getD n none = some number) : RoundTrip s root seen p n := by
  intro waiting hp
  have hturn : s.turn p (.node n) = .next { p with text := p.text ++ s!"#{number}" } [] := by
    rw [Scene.turn, if_pos hshared, hnumber]
  have hlt : number < 2 ^ 32 := by
    have := hp.number_le hnumber
    have := hp.count_le
    have := hs.size_lt
    omega
  have htext : (s!"#{number}").toList = '#' :: (toString number).toList := by
    rw [String.toList_append]
    rfl
  have hwritten := written_of_next hp hturn
  rw [htext] at hwritten
  refine ⟨seen, _, _, hwritten, ⟨_, _, rfl, by decide⟩,
    (hp.numbered.1 (by rw [hnumber]; rfl)).1, fun {t r before rest} hm hr hbefore hrest => ?_⟩
  have hhash : Scans before .hash ((toString number).toList ++ rest) := by
    rcases hbefore with rfl | rfl
    · exact scans_hash _
    · exact (scans_hash _).blank
  obtain ⟨scanner, hr', hread⟩ :=
    Reading.readStructure_known hr hhash (scans_number hlt hrest) (hm.known hnumber)
  exact ⟨t, _, 1, Agenda.leads_of_next hread (Agenda.leads_nil _), Nat.le_add_left ..,
    hm.congr rfl rfl rfl rfl rfl, .refl s seen t, hr', rfl⟩

/-- What the printer writes for some of the edges of a node under way is read as features of that
node. -/
def BodyRoundTrip (s : Scene) (root : Nat) (seen : NodeId → Prop) (p : Printed) (n : NodeId)
    (edges : List Edge) : Prop :=
  ∀ waiting, Printing s root seen p (s.bodyFrom edges ++ waiting) → ∃ seen' p' cs,
    Written s root seen p (s.bodyFrom edges) waiting seen' p' cs ∧ Delimited cs ∧
      ∀ {t r rest}, Matching s seen p t r → t.edges n ++ edges = s.graph.currentEdges n →
        r.Before (cs ++ rest) → TakesUp s seen (t.setEdges n (s.graph.currentEdges n)) seen' p' n r
          (.features (t.copy n)) cs rest

theorem bodyRoundTrip_nil : BodyRoundTrip s root seen p n [] := by
  intro waiting hp
  have hturn : s.turn p (.text "]") = .next { p with text := p.text ++ "]" } [] := rfl
  refine ⟨seen, _, _, written_of_next hp hturn, ⟨']', [], rfl, by decide⟩,
    fun {t r rest} hm hedges hr => ?_⟩
  obtain ⟨scanner, hr', hread⟩ :=
    Reading.readFeature_close s.names hr (t.copy n) (scans_closeBracket rest)
  rw [List.append_nil] at hedges
  rw [← hedges, t.setEdges_eq_self]
  exact ⟨t, _, 1, Agenda.leads_of_next hread (Agenda.leads_nil _), Nat.le_add_left ..,
    hm.congr rfl rfl rfl rfl rfl, .refl s seen t, hr', rfl⟩

theorem Scene.toList_lead (s : Scene) (e : Edge) : (s.lead e).toList =
    ' ' :: ((featureText s.names e.feature).toList ++
      if s.isShared (s.graph.deref e.target) then [' '] else []) := by
  unfold lead
  split <;> simp

theorem bodyRoundTrip_cons (hs : s.Legible root) (hn : seen n) {done edges : List Edge} {e : Edge}
    (hedges : done ++ e :: edges = s.graph.currentEdges n)
    (hvalue : ∀ p, RoundTrip s root seen p (s.graph.deref e.target))
    (hrest : ∀ {seen' p'}, (∀ {m}, seen m → seen' m) → BodyRoundTrip s root seen' p' n edges) :
    BodyRoundTrip s root seen p n (e :: edges) := by
  intro waiting hp
  have hturn : s.turn p (.text (s.lead e)) = .next { p with text := p.text ++ s.lead e } [] := rfl
  have hlead := written_of_next hp hturn
  obtain ⟨seen₁, p₁, cs₁, hwritten₁, hdelimited₁, hseen₁, hread₁⟩ :=
    hvalue _ (s.bodyFrom edges ++ waiting) hlead.printing
  obtain ⟨seen₂, p₂, cs₂, hwritten₂, hdelimited₂, hread₂⟩ :=
    hrest hwritten₁.mono waiting hwritten₁.printing
  have hname := s.toList_lead e
  refine ⟨seen₂, p₂, (s.lead e).toList ++ (cs₁ ++ cs₂), hlead.append (hwritten₁.append hwritten₂),
    ⟨_, _, by rw [hname, List.cons_append], by decide⟩, fun {t r rest} hm ht hr => ?_⟩
  have he : e ∈ s.graph.currentEdges n := hedges ▸ List.mem_append_right _ (List.mem_cons_self ..)
  have hfeature := hs.feature_lt (hp.reach (.inl hn)) he
  -- the name, maybe a blank, and the value
  obtain ⟨blank, hblank⟩ : ∃ blank : List Char, blank =
    if s.isShared (s.graph.deref e.target) then [' '] else [] := ⟨_, rfl⟩
  have hcases : blank = [] ∨ blank = [' '] := by
    rw [hblank]
    split <;> simp
  have hcs : (s.lead e).toList ++ (cs₁ ++ cs₂) ++ rest =
      ' ' :: ((featureText s.names e.feature).toList ++ (blank ++ (cs₁ ++ (cs₂ ++ rest)))) := by
    rw [hname, hblank]
    simp only [List.cons_append, List.append_assoc]
  have hend : EndsWord (blank ++ (cs₁ ++ (cs₂ ++ rest))) := by
    rcases hcases with rfl | rfl
    · exact hdelimited₁.endsWord _
    · exact Delimited.endsWord ⟨' ', [], rfl, by decide⟩ _
  obtain ⟨scanner, hr₀, hturn₀⟩ := Reading.readFeature_featureText hr (t.copy n)
    hs.readable_feature hfeature hcs hend
  have hm₀ : Matching s seen { p with text := p.text ++ s.lead e } t { r with scanner } :=
    hm.congr rfl rfl rfl rfl rfl
  obtain ⟨t₁, r₁, turns₁, hleads₁, hturns₁, hm₁, hadvance₁, hr₁, hvalue₁⟩ :=
    hread₁ hm₀ hr₀ (hcases.imp (fun h => by rw [h]; rfl) fun h => by rw [h]; rfl)
      (hdelimited₂.endsWord rest)
  -- the value becomes that of the feature
  obtain ⟨r₂, hr₂⟩ : ∃ r₂ : Reading, r₂ =
    { r₁ with graph := r₁.graph.putEdge (t.copy n) e.feature r₁.value } := ⟨_, rfl⟩
  have hturn₁ : Reading.turn s.names r₁ (.attach (t.copy n) e.feature) = .next r₂ [] := by
    rw [hr₂]
    rfl
  have hcopy₁ : t₁.copy n = t.copy n := hadvance₁.copy_eq hn
  have ht₁ : t₁.edges n ++ e :: edges = s.graph.currentEdges n := by
    rw [hadvance₁.edges_eq hn, ht]
  have hm₂ : Matching s seen₁ p₁ (t₁.setEdges n (t₁.edges n ++ [e])) r₂ :=
    hm₁.attach hs.entangled (hwritten₁.mono hn) ht₁ hseen₁ (by rw [hr₂, hvalue₁, hcopy₁])
      (by rw [hr₂]) (by rw [hr₂])
  -- the other features
  obtain ⟨t₂, r₃, turns₂, hleads₂, hturns₂, hm₃, hadvance₂, hr₃, hvalue₂⟩ :=
    hread₂ hm₂ (by rw [Track.edges_setEdges_self, List.append_assoc]; exact ht₁)
      (show r₂.Before (cs₂ ++ rest) by rw [hr₂]; exact hr₁)
  rw [Track.setEdges_setEdges] at hadvance₂
  rw [Track.copy_setEdges, hcopy₁] at hleads₂
  refine ⟨t₂, r₃, _, Agenda.leads_of_next hturn₀ (hleads₁.append
    ((Agenda.leads_of_next hturn₁ (Agenda.leads_nil _)).append hleads₂)), ?_, hm₃,
      (hadvance₁.setEdges hn _).trans hadvance₂ hwritten₁.mono, hr₃, hvalue₂⟩
  rw [hname]
  simp only [List.length_append, List.length_cons]
  omega

/-- What stands before the bracket of a node that is printed for the first time. -/
structure Begins (s : Scene) (p : Printed) (n : NodeId) (p₁ : Printed) (lead : List Char) :
    Prop where
  turn_eq : s.turn p (.node n) = .next p₁ (s.body n)
  text_eq : p₁.text.toList =
    p.text.toList ++ (lead ++ '[' :: (typeText s.lattice (s.graph.currentType n)).toList)
  numbered : (s.isShared n = false ∧ p₁.numbers = p.numbers ∧ p₁.count = p.count ∧ lead = []) ∨
    (s.isShared n = true ∧ p₁.numbers = p.numbers.setIfInBounds n (some (p.count + 1)) ∧
      p₁.count = p.count + 1 ∧ lead = '#' :: (toString (p.count + 1)).toList)

theorem exists_begins (s : Scene) (p : Printed) (n : NodeId)
    (hnew : s.isShared n = true → p.numbers.getD n none = none) :
    ∃ p₁ lead, Begins s p n p₁ lead := by
  cases hshared : s.isShared n with
  | false =>
    refine ⟨{ p with text := p.text ++ s.opening n }, [], ?_, ?_, .inl ⟨hshared, rfl, rfl, rfl⟩⟩
    · simp only [Scene.turn, hshared]
      rfl
    · simp [Scene.opening]
  | true =>
    refine ⟨⟨p.text ++ s!"#{p.count + 1}" ++ s.opening n,
      p.numbers.setIfInBounds n (some (p.count + 1)), p.count + 1⟩,
      '#' :: (toString (p.count + 1)).toList, ?_, ?_, .inr ⟨hshared, rfl, rfl, rfl⟩⟩
    · simp only [Scene.turn, hshared, hnew hshared, if_true]
    · simp only [String.toList_append, Scene.opening, List.append_assoc, List.cons_append]
      rfl

theorem Begins.numbers {p₁ : Printed} {lead : List Char} (h : Begins s p n p₁ lead) :
    s.Numbers n p p₁ := by
  rcases h.numbered with ⟨hshared, hnumbers, hcount, -⟩ | ⟨hshared, hnumbers, hcount, -⟩
  · exact .plain hshared hnumbers hcount
  · exact .shared hshared hnumbers hcount

/-- The reader begins a node where the printer does. -/
theorem Begins.readStructure {p₁ : Printed} {lead : List Char} (h : Begins s p n p₁ lead)
    (hcount : p.count + 1 < 2 ^ 32) {t : Track} {r : Reading} (hm : Matching s seen p t r)
    {before rest : List Char} (hr : r.Before before)
    (hbefore : before = lead ++ '[' :: rest ∨ before = ' ' :: (lead ++ '[' :: rest)) :
    ∃ r₁, r.readStructure = .next r₁ [.type r.graph.size] ∧ r₁.Before rest ∧
      r₁.graph = r.graph.add .top [] ∧ r₁.lattice = r.lattice ∧
      ((p₁.numbers = p.numbers ∧ p₁.count = p.count ∧ r₁.corefs = r.corefs) ∨
        (p₁.numbers = p.numbers.setIfInBounds n (some (p.count + 1)) ∧ p₁.count = p.count + 1 ∧
          r₁.corefs = r.corefs.insert (p.count + 1) r.graph.size)) := by
  rcases h.numbered with ⟨-, hnumbers, hp₁, rfl⟩ | ⟨-, hnumbers, hp₁, rfl⟩
  · have hbracket : Scans before .openBracket rest := by
      rcases hbefore with rfl | rfl
      · exact scans_openBracket rest
      · exact (scans_openBracket rest).blank
    obtain ⟨scanner, hr₁, hread⟩ := Reading.readStructure_bracket hr hbracket
    exact ⟨_, hread, hr₁, rfl, rfl, .inl ⟨hnumbers, hp₁, rfl⟩⟩
  · have hhash : Scans before .hash ((toString (p.count + 1)).toList ++ '[' :: rest) := by
      rcases hbefore with rfl | rfl
      · exact scans_hash _
      · exact (scans_hash _).blank
    have hend : EndsWord ('[' :: rest) := Delimited.endsWord ⟨'[', [], rfl, by decide⟩ rest
    obtain ⟨scanner, hr₁, hread⟩ := Reading.readStructure_new hr hhash (scans_number hcount hend)
      (scans_openBracket rest) (hm.unknown (Nat.lt_succ_self _))
    exact ⟨_, hread, hr₁, rfl, rfl, .inr ⟨hnumbers, hp₁, rfl⟩⟩

theorem roundTrip_new (hs : s.Legible root)
    (hnew : s.isShared n = true → p.numbers.getD n none = none)
    (hbody : ∀ {p₁}, n < s.graph.size → ¬ seen n →
      BodyRoundTrip s root (fun m => m = n ∨ seen m) p₁ n (s.graph.currentEdges n)) :
    RoundTrip s root seen p n := by
  intro waiting hp
  obtain ⟨p₁, lead, hbegins⟩ := exists_begins s p n hnew
  have hseen := hp.not_seen hnew
  have hlt := hp.lt_size hs.toSound
  have hprinting : Printing s root (fun m => m = n ∨ seen m) p₁ (s.body n ++ waiting) :=
    hp.visit hs.toSound hseen hbegins.numbers
  obtain ⟨seen', p', cs, hwritten, hdelimited, hread⟩ := hbody hlt hseen waiting hprinting
  obtain ⟨turns, hleads, hturns⟩ := hwritten.leads
  refine ⟨seen', p', lead ++ '[' :: (typeText s.lattice (s.graph.currentType n)).toList ++ cs,
    ⟨⟨turns + 1, Agenda.leads_of_next hbegins.turn_eq hleads, ?_⟩, hwritten.printing, ?_,
      fun hm => hwritten.mono (.inr hm)⟩, ?_, hwritten.mono (.inl rfl),
        fun {t r before rest} hm hr hbefore hrest => ?_⟩
  · -- the node is no longer ahead
    have hmark : s.ahead (fun m => m = n ∨ seen m) + (s.body n).length = s.ahead seen :=
      Agenda.leftOver_mark _ hlt hseen fun _ => Iff.rfl
    rw [← s.body_eq] at hturns
    simp only [List.length_singleton]
    omega
  · rw [hwritten.text_eq, hbegins.text_eq, List.append_assoc]
  · rcases hbegins.numbered with ⟨-, -, -, rfl⟩ | ⟨-, -, -, rfl⟩
    · exact ⟨_, _, rfl, by decide⟩
    · exact ⟨_, _, rfl, by decide⟩
  · have hcount : p.count + 1 < 2 ^ 32 := by
      have hmark := Agenda.leftOver_mark (fun _ => 1) hlt hseen
        fun m => (Iff.rfl : (m = n ∨ seen m) ↔ _)
      have := hp.count_le
      have := hs.size_lt
      omega
    obtain ⟨following, hfollowing⟩ : ∃ following, following =
      (typeText s.lattice (s.graph.currentType n)).toList ++ (cs ++ rest) := ⟨_, rfl⟩
    -- the bracket is opened, the type is set, and the rest is read into the new node
    obtain ⟨r₁, hturn₁, hr₁, hgraph₁, hlattice₁, hnumber⟩ :=
      hbegins.readStructure hcount hm hr
        (show before = lead ++ '[' :: following ∨ before = ' ' :: (lead ++ '[' :: following) by
          simpa [hfollowing] using hbefore)
    have hlattice : r₁.lattice = s.lattice := hlattice₁.trans hm.lattice_eq
    obtain ⟨scanner, hr₂, hturn₂⟩ := Reading.readType_typeText hr₁ r.graph.size
      (t := s.graph.currentType n) (hlattice ▸ hs.atomsApart) (hlattice ▸ hs.readable_type)
      (hlattice ▸ hs.hasType (hp.reach (.inr (List.mem_cons_self ..)))) (by rw [hlattice, hfollowing])
      (hdelimited.endsWord rest)
    obtain ⟨r₂, heq₂⟩ : ∃ r₂ : Reading, r₂ = { r₁ with
      graph := r₁.graph.setType r.graph.size (s.graph.currentType n), scanner } := ⟨_, rfl⟩
    have hm₂ : Matching s (fun m => m = n ∨ seen m) p₁ (t.begin n r.graph.size) r₂ :=
      hm.visit (by rw [heq₂]; exact hnumber) hp hseen
        (by rw [heq₂, hgraph₁]; exact Graph.setType_add ..) (by rw [heq₂]; exact hlattice₁)
    obtain ⟨t', r', turns', hleads', hturns', hm', hadvance, hr', hvalue⟩ :=
      hread hm₂ (by rw [Track.edges_begin_self, List.nil_append])
        (show r₂.Before (cs ++ rest) by rw [heq₂]; exact hr₂)
    rw [Track.copy_begin_self] at hleads'
    rw [← heq₂] at hturn₂
    refine ⟨t', r', _, Agenda.leads_of_next hturn₁ (Agenda.leads_of_next hturn₂ hleads'), ?_, hm',
      (advance_begin s t hseen _).trans hadvance .inr, hr', hvalue⟩
    simp only [List.length_append, List.length_cons]
    omega

theorem bodyRoundTrip (hs : s.Legible root) {bound : Nat}
    (hnode : ∀ {seen p m}, s.unseen seen ≤ bound → RoundTrip s root seen p m) {edges done : List Edge}
    (hbound : s.unseen seen ≤ bound) (hn : seen n)
    (hedges : done ++ edges = s.graph.currentEdges n) : BodyRoundTrip s root seen p n edges := by
  induction edges generalizing seen p done with
  | nil => exact bodyRoundTrip_nil
  | cons e edges ih =>
    refine bodyRoundTrip_cons hs hn hedges (fun p => hnode hbound) fun hmono => ?_
    have hedges' : (done ++ [e]) ++ edges = s.graph.currentEdges n := by
      rw [List.append_assoc]
      exact hedges
    exact ih (Nat.le_trans (Agenda.leftOver_mono _ fun _ => hmono) hbound) (hmono hn) hedges'

/-- Whatever was printed before, the structure below a node is read as it is printed: below a node
that is new one node less is new. -/
theorem roundTrip (hs : s.Legible root) (seen : NodeId → Prop) (p : Printed) (n : NodeId) :
    RoundTrip s root seen p n := by
  induction hunseen : s.unseen seen using Nat.strong_induction_on generalizing seen p n with
  | _ bound ih =>
    by_cases hknown : s.isShared n = true ∧ ∃ number, p.numbers.getD n none = some number
    · obtain ⟨hshared, number, hnumber⟩ := hknown
      exact roundTrip_known hs hshared hnumber
    · refine roundTrip_new hs (fun hshared => ?_) fun {p₁} hlt hnew => ?_
      · exact Option.eq_none_iff_forall_ne_some.2 fun number hnumber =>
          hknown ⟨hshared, number, hnumber⟩
      · have hmark : s.unseen (fun m => m = n ∨ seen m) + 1 = s.unseen seen :=
          Agenda.leftOver_mark (fun _ => 1) hlt hnew fun _ => Iff.rfl
        refine bodyRoundTrip hs (fun {seen' p' m} hle => ?_) (Nat.le_refl _) (.inl rfl)
          (List.nil_append _)
        exact ih (s.unseen seen') (by omega) seen' p' m rfl

end RoundTrip

/-! ## Whole texts -/

section Whole

variable {s : Scene} {root : Nat}

/-- At the beginning nothing is printed and nothing read. -/
theorem matching_start (s : Scene) (t : Track) (scanner : Scanner) :
    Matching s (fun _ => False) ⟨"", .replicate s.graph.size none, 0⟩ t
      ⟨s.graph, s.lattice, scanner, {}, 0⟩ where
  lattice_eq := rfl
  graph := .refl _
  known {n number} h := by
    simp only [Array.getD_eq_getD_getElem?, Array.getElem?_replicate] at h
    split at h <;> cases h
  unknown _ := Std.HashMap.getElem?_empty
  copy_lt h := h.elim
  size_le h := h.elim
  copy_inj h := h.elim
  type_eq h := h.elim
  value_eq h := h.elim
  target_seen h := h.elim

/-- When every node that was printed is read with all its edges, what was read is the structure
that was printed. -/
theorem Matching.isomorphic {seen : NodeId → Prop} {p : Printed} {t : Track} {r : Reading}
    (h : Matching s seen p t r) (hs : s.graph.Entangled) (hroot : seen (s.graph.deref root))
    (hcomplete : ∀ {n}, seen n → t.edges n = s.graph.currentEdges n) :
    s.graph.web.view.Isomorphic (s.graph.deref root) r.graph.shape
      (t.copy (s.graph.deref root)) := by
  have hvalue : ∀ {n}, seen n → ∀ f, r.graph.value? (t.copy n) f =
      (s.graph.web.view.value? n f).map t.copy := by
    intro n hn f
    rw [h.value_eq hn, hcomplete hn, hs.target?_currentEdges]
    exact (Option.map_map ..).symm
  have hseen : ∀ {n}, s.graph.web.view.Reach (s.graph.deref root) n → seen n := by
    intro n hn
    have hview := hs.reach_view_iff.2 hn
    clear hn
    induction hview with
    | refl => exact hroot
    | tail _ hstep ih =>
      obtain ⟨e, he, rfl⟩ := List.mem_map.1 (Graph.mem_currentTargets.2 hstep)
      exact h.target_seen ih (hcomplete ih ▸ he)
  exact ⟨t.copy, rfl, fun n hn m hm => h.copy_inj (hseen hn) (hseen hm),
    fun n hn => ⟨h.type_eq (hseen hn), hvalue (hseen hn)⟩⟩

/-- The text of a structure is read as that structure, and the lattice learns nothing from it. -/
theorem Scene.Legible.exists_parse (hs : s.Legible root) : ∃ node graph scanner,
    parse s.names s.lattice s.graph (print s.names s.lattice s.graph root) =
      ⟨.ok node, graph, s.lattice, scanner⟩ ∧ s.graph.Extends graph ∧
        s.graph.web.view.Isomorphic (s.graph.deref root) graph.shape node := by
  obtain ⟨seen, p, cs, hwritten, -, hroot, hread⟩ :=
    roundTrip hs (fun _ => False) _ _ [] (Printing.start hs.toSound)
  obtain ⟨turns, hleads, hturns⟩ := hwritten.leads
  have htext : (print s.names s.lattice s.graph root).toList = cs := by
    have hscene : (⟨s.graph, s.lattice, s.names, Notation.arrivals s.graph root⟩ : Scene) = s := by
      rw [← hs.arrivals_eq]
    have hfuel : turns ≤ 2 * s.graph.weight := by
      have := s.ahead_lt fun _ => False
      simp only [List.length_singleton] at hturns
      omega
    rw [print, hscene]
    simp only [hleads.run_eq_done hfuel, Ending.state, hwritten.text_eq]
    rfl
  obtain ⟨text, heq⟩ : ∃ text, text = print s.names s.lattice s.graph root := ⟨_, rfl⟩
  rw [← heq] at htext ⊢
  obtain ⟨t, r, turns', hleads', hturns', hm, hadvance, ⟨hahead, hrest⟩, hvalue⟩ :=
    hread (matching_start s ⟨id, fun _ => []⟩ (.start text))
      (show Reading.Before _ cs from ⟨rfl, htext⟩) (.inl (List.append_nil cs).symm) nofun
  have hfuel' : turns' ≤ 3 * ((Scanner.start text).bound + 2) := by
    -- a turn reads a character at least
    have hbound : (Scanner.start text).bound = cs.length + 1 := congrArg (·.length + 1) htext
    rw [hbound]
    omega
  obtain ⟨graph, lattice, ⟨cursor, ahead⟩, corefs, value⟩ := r
  obtain rfl : ahead = none := hahead
  obtain rfl : lattice = s.lattice := hm.lattice_eq
  refine ⟨value, graph, ⟨cursor, none⟩, ?_, hm.graph, ?_⟩
  · simp only [parse, read, hleads'.run_eq_done hfuel', Scanner.next, scan_nil hrest]
  · rw [show value = t.copy (s.graph.deref root) from hvalue]
    exact hm.isomorphic hs.entangled hroot fun hn => hadvance.complete hn not_false

end Whole

end FeatureLogic.Notation
