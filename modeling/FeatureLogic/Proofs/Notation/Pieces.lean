import Mathlib.Data.Set.Card
import FeatureLogic.Proofs.Notation.Printing

/-!
The pieces of a printed text. A number of a coreference is printed either before the structure that
it is given to or in place of it. Numbers are given in order, and none stands in place of a
structure before it has been given (`Notation.Enumerated`); every node that is come to more than
once gets one (`Notation.Scene.Sound.count_eq`).
-/

open Relation

namespace FeatureLogic.Notation

/-! ## Pieces -/

/-- What is printed at once. -/
inductive Piece
  | text (words : String)
  /-- The number of a coreference before its structure, which follows. -/
  | definition (number : Nat)
  /-- The number of a coreference in place of its structure. -/
  | reference (number : Nat)

/-- The text of a piece. -/
def Piece.render : Piece → String
  | text words => words
  | definition number | reference number => s!"#{number}"

/-- The text of a list of pieces. -/
def render (pieces : List Piece) : String := String.join (pieces.map Piece.render)

/-- The numbers that are given in a text, in order. -/
def definitions (pieces : List Piece) : List Nat :=
  pieces.filterMap fun
    | .definition number => some number
    | _ => none

/-- What a turn of the printer prints. -/
def Scene.pieces (s : Scene) (p : Printed) : PrintTask → List Piece
  | .text words => [.text words]
  | .node n =>
    if s.isShared n then
      match p.numbers.getD n none with
      | some number => [.reference number]
      | none => [.definition (p.count + 1), .text (s.opening n)]
    else [.text (s.opening n)]

/-- The pieces of the text of the structure below a node, turn by turn. -/
def Scene.allPieces (s : Scene) (root : NodeId) : List Piece :=
  (Agenda.trace s.turn (2 * s.graph.weight) ⟨"", .replicate s.graph.size none, 0⟩
    [.node (s.graph.deref root)]).flatMap fun turn => s.pieces turn.1 turn.2

theorem render_append (first second : List Piece) :
    render (first ++ second) = render first ++ render second := by
  induction first with
  | nil => simp [render, String.join_nil]
  | cons piece first ih =>
    simp only [render, List.cons_append, List.map_cons, String.join_cons, String.append_assoc]
      at ih ⊢
    rw [ih]

/-- Pieces that begin when `count` numbers have been given, and end when `count'` have. -/
inductive Enumerated : Nat → List Piece → Nat → Prop
  | nil {count : Nat} : Enumerated count [] count
  | text {count count' : Nat} {words : String} {rest : List Piece}
    (h : Enumerated count rest count') : Enumerated count (.text words :: rest) count'
  | definition {count count' : Nat} {rest : List Piece} (h : Enumerated (count + 1) rest count') :
    Enumerated count (.definition (count + 1) :: rest) count'
  | reference {count count' number : Nat} {rest : List Piece} (hpos : 0 < number)
    (hle : number ≤ count) (h : Enumerated count rest count') :
    Enumerated count (.reference number :: rest) count'

namespace Enumerated

variable {count count' : Nat} {pieces : List Piece} (h : Enumerated count pieces count')
include h

theorem append {count'' : Nat} {rest : List Piece} (h' : Enumerated count' rest count'') :
    Enumerated count (pieces ++ rest) count'' := by
  induction h with
  | nil => exact h'
  | text _ ih => exact .text (ih h')
  | definition _ ih => exact .definition (ih h')
  | reference hpos hle _ ih => exact .reference hpos hle (ih h')

/-- Numbers are given in order. -/
theorem definitions_eq : ∃ k, definitions pieces = List.range' (count + 1) k ∧
    count' = count + k := by
  induction h with
  | nil => exact ⟨0, rfl, rfl⟩
  | text _ ih => exact ih
  | reference _ _ _ ih => exact ih
  | @definition count _ rest _ ih =>
    obtain ⟨k, hk, rfl⟩ := ih
    refine ⟨k + 1, ?_, by omega⟩
    rw [List.range'_succ, ← hk]
    rfl

/-- A number that stands in place of a structure has been given. -/
theorem of_reference {number : Nat} {before after : List Piece}
    (hsplit : pieces = before ++ .reference number :: after) :
    0 < number ∧ (number ≤ count ∨ number ∈ definitions before) := by
  induction h generalizing before with
  | nil => simp at hsplit
  | text _ ih =>
    rcases List.cons_eq_append_iff.1 hsplit with ⟨rfl, heq⟩ | ⟨before, rfl, rfl⟩
    · cases heq
    · have hrest := ih rfl
      exact hrest
  | @definition count _ _ _ ih =>
    rcases List.cons_eq_append_iff.1 hsplit with ⟨rfl, heq⟩ | ⟨before, rfl, rfl⟩
    · cases heq
    · obtain ⟨hpos, hle | hmem⟩ := ih rfl
      · refine ⟨hpos, ?_⟩
        rcases Nat.le_succ_iff.1 hle with hle | rfl
        · exact .inl hle
        · exact .inr (List.mem_cons_self ..)
      · exact ⟨hpos, .inr (List.mem_cons_of_mem _ hmem)⟩
  | reference hpos hle _ ih =>
    rcases List.cons_eq_append_iff.1 hsplit with ⟨rfl, heq⟩ | ⟨before, rfl, rfl⟩
    · cases heq
      exact ⟨hpos, .inl hle⟩
    · have hrest := ih rfl
      exact hrest

end Enumerated

/-! ## What a run prints -/

namespace Scene

variable (s : Scene)

/-- A turn appends its pieces to the text. -/
theorem text_turn {p p' : Printed} {task : PrintTask} {tasks : List PrintTask}
    (ht : s.turn p task = .next p' tasks) : p'.text = p.text ++ render (s.pieces p task) := by
  rcases turn_next ht with ⟨text, rfl, rfl, -⟩ | ⟨n, number, rfl, hshared, hsome, rfl, -⟩ |
    ⟨n, number, rfl, hshared, hnone, rfl, rfl, -⟩ | ⟨n, rfl, hshared, rfl, -⟩
  · simp [pieces, render, Piece.render, String.join_cons, String.join_nil]
  · simp [pieces, hshared, hsome, render, Piece.render, String.join_cons, String.join_nil]
  · simp [pieces, hshared, hnone, render, Piece.render, String.join_cons, String.join_nil,
      String.append_assoc]
  · simp [pieces, hshared, render, Piece.render, String.join_cons, String.join_nil]

/-- The numbers given so far are from one to their count. -/
def Counted (p : Printed) : Prop :=
  ∀ {n k : Nat}, p.numbers.getD n none = some k → 0 < k ∧ k ≤ p.count

theorem counted_start (size : Nat) : Counted ⟨"", .replicate size none, 0⟩ := fun {n k} h => by
  simp only [Array.getD_eq_getD_getElem?, Array.getElem?_replicate] at h
  split at h <;> cases h

/-- A turn gives the next number or none. -/
theorem numbered_turn {p p' : Printed} (hp : Counted p) {task : PrintTask} {tasks : List PrintTask}
    (ht : s.turn p task = .next p' tasks) :
    Counted p' ∧ Enumerated p.count (s.pieces p task) p'.count := by
  rcases turn_next ht with ⟨text, rfl, rfl, -⟩ | ⟨n, number, rfl, hshared, hsome, rfl, -⟩ |
    ⟨n, number, rfl, hshared, hnone, rfl, rfl, -⟩ | ⟨n, rfl, hshared, rfl, -⟩
  · exact ⟨hp, .text .nil⟩
  · obtain ⟨hpos, hle⟩ := hp hsome
    refine ⟨hp, ?_⟩
    rw [pieces, if_pos hshared, hsome]
    exact .reference hpos hle .nil
  · refine ⟨fun {m k} hk => ?_, ?_⟩
    · simp only [getD_setIfInBounds] at hk
      split at hk
      · cases hk
        exact ⟨Nat.succ_pos _, Nat.le_refl _⟩
      · exact ⟨(hp hk).1, Nat.le_succ_of_le (hp hk).2⟩
    · rw [pieces, if_pos hshared, hnone]
      exact .definition (.text .nil)
  · rw [pieces, if_neg (by simp [hshared])]
    exact ⟨hp, .text .nil⟩

/-- The text is that of its pieces. -/
theorem text_run (fuel : Nat) (p : Printed) (tasks : List PrintTask) :
    (Agenda.run s.turn fuel p tasks).state.text = p.text ++
      render ((Agenda.trace s.turn fuel p tasks).flatMap fun turn => s.pieces turn.1 turn.2) := by
  refine Agenda.trace_induct (R := fun p pieces p' => p'.text = p.text ++ render pieces)
    (fun turn => s.pieces turn.1 turn.2) (fun p => ?_) (fun ht h => ?_) fuel p tasks
  · simp [render, String.join_nil]
  · rw [h, s.text_turn ht, render_append, String.append_assoc]

/-- Numbers are given in order over a whole run. -/
theorem numbered_run (fuel : Nat) {p : Printed} (hp : Counted p) (tasks : List PrintTask) :
    Enumerated p.count
      ((Agenda.trace s.turn fuel p tasks).flatMap fun turn => s.pieces turn.1 turn.2)
      (Agenda.run s.turn fuel p tasks).state.count :=
  Agenda.trace_induct (R := fun p pieces p' => Counted p → Enumerated p.count pieces p'.count)
    (fun turn => s.pieces turn.1 turn.2) (fun _ _ => .nil)
    (fun ht h hp => (s.numbered_turn hp ht).2.append (h (s.numbered_turn hp ht).1)) fuel p tasks hp

end Scene

/-! ## Which nodes get a number -/

/-- What holds between two turns of printing: what is printed has its values printed or waiting, and
as many numbers have been given as nodes that are come to more than once have been printed. -/
structure Covering (s : Scene) (root : Nat) (seen : NodeId → Prop) (p : Printed)
    (tasks : List PrintTask) : Prop where
  printing : Printing s root seen p tasks
  root_mem : seen (s.graph.deref root) ∨ s.graph.deref root ∈ nodesOf tasks
  closed : ∀ {n m}, seen n → m ∈ s.graph.currentTargets n → seen m ∨ m ∈ nodesOf tasks
  count_eq : p.count = {n | seen n ∧ s.isShared n = true}.ncard

namespace Covering

variable {s : Scene} {root : Nat} (hs : s.Sound root) {seen : NodeId → Prop} {p : Printed}
include hs

theorem start : Covering s root (fun _ => False) ⟨"", .replicate s.graph.size none, 0⟩
    [.node (s.graph.deref root)] where
  printing := .start hs
  root_mem := .inr (List.mem_cons_self ..)
  closed h := h.elim
  count_eq := by simp

/-- A turn that goes on leaves what waits to be printed, or prints it. -/
theorem turn {task : PrintTask} {waiting : List PrintTask}
    (h : Covering s root seen p (task :: waiting)) {p' : Printed} {tasks : List PrintTask}
    (ht : s.turn p task = .next p' tasks) :
    ∃ seen', Covering s root seen' p' (tasks ++ waiting) := by
  have hmem : ∀ {m}, m ∈ nodesOf (task :: waiting) → task = .node m ∨ m ∈ nodesOf waiting := by
    intro m hm
    cases task with
    | text words => exact .inr hm
    | node n => exact (List.mem_cons.1 hm).imp_left fun heq => by rw [heq]
  rcases h.printing.turn_cases ht with ⟨⟨text, rfl⟩, rfl, hseen⟩ | ⟨n, rfl, hnew, hp, rfl⟩
  · have hkeep : ∀ {m}, seen m ∨ m ∈ nodesOf (task :: waiting) → seen m ∨ m ∈ nodesOf waiting :=
      fun hm => hm.elim .inl fun hm => (hmem hm).imp_left (hseen _)
    exact ⟨seen, h.printing.drop _, hkeep h.root_mem, fun hn hm => hkeep (h.closed hn hm),
      h.count_eq⟩
  · have hkeep : ∀ {m}, seen m ∨ m ∈ nodesOf (.node n :: waiting) →
        (m = n ∨ seen m) ∨ m ∈ nodesOf (s.body n ++ waiting) := by
      rintro m (hm | hm)
      · exact .inl (.inr hm)
      · rw [s.nodesOf_body_append]
        rcases List.mem_cons.1 hm with rfl | hm
        · exact .inl (.inl rfl)
        · exact .inr (List.mem_append_right _ hm)
    refine ⟨_, h.printing.visit hs hnew hp, hkeep h.root_mem, fun {m k} hm hk => ?_, ?_⟩
    · rcases hm with rfl | hm
      · rw [s.nodesOf_body_append]
        exact .inr (List.mem_append_left _ hk)
      · exact hkeep (h.closed hm hk)
    · -- a shared node has taken the next number, and no other node has
      have hfinite : {m | seen m ∧ s.isShared m = true}.Finite :=
        (Set.finite_lt_nat s.graph.size).subset fun m hm =>
          hs.graph.reach_lt hs.root_lt (h.printing.reach (.inl hm.1))
      rw [hp.count_eq, h.count_eq]
      by_cases hshared : s.isShared n = true
      · have hinsert : {m | (m = n ∨ seen m) ∧ s.isShared m = true} =
            insert n {m | seen m ∧ s.isShared m = true} := by
          ext m
          simp only [Set.mem_ofPred_eq, Set.mem_insert_iff]
          grind
        rw [hinsert, if_pos hshared, Set.ncard_insert_of_notMem (fun hn => hnew hn.1) hfinite]
      · rw [if_neg hshared, Nat.add_zero]
        congr 1
        ext m
        simp only [Set.mem_ofPred_eq]
        grind

end Covering

namespace Scene

variable {s : Scene} {root : Nat} (hs : s.Sound root)
include hs

/-- As many numbers are given as there are nodes that are come to more than once. -/
theorem Sound.count_eq {fuel : Nat} (hfuel : 2 * s.graph.weight ≤ fuel) :
    (Agenda.run s.turn fuel ⟨"", .replicate s.graph.size none, 0⟩
      [.node (s.graph.deref root)]).state.count =
      {n | s.graph.view.Reach (s.graph.deref root) n ∧ s.isShared n = true}.ncard := by
  have hkeeps : Agenda.Keeps s.turn fun p tasks => ∃ seen, Covering s root seen p tasks :=
    ⟨fun ⟨_, h⟩ ht => h.turn hs ht⟩
  cases hrun : Agenda.run s.turn fuel ⟨"", .replicate s.graph.size none, 0⟩
      [.node (s.graph.deref root)] with
  | spent p waiting => exact absurd hrun (Printing.run_ne_spent hs hfuel p waiting)
  | halted p answer waiting => exact answer.elim
  | done p =>
    obtain ⟨seen, h⟩ := hkeeps.done ⟨_, Covering.start hs⟩ hrun
    have hseen : ∀ n, seen n ↔ s.graph.view.Reach (s.graph.deref root) n := by
      refine fun n => ⟨fun hn => h.printing.reach (.inl hn), fun hn => ?_⟩
      induction hn with
      | refl => exact h.root_mem.resolve_right List.not_mem_nil
      | tail _ hstep ih =>
        exact (h.closed ih (Graph.mem_currentTargets.2 hstep)).resolve_right List.not_mem_nil
    simp only [Ending.state, h.count_eq, hseen]

end Scene

end FeatureLogic.Notation
