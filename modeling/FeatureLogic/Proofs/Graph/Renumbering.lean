import FeatureLogic.Proofs.Graph.Dropping

/-!
Renumbering. When a range of nodes is dropped the nodes behind it get lower numbers, and every edge
to one of them has to follow (`Graph.Renumbers`). Compaction sees to the edges of the nodes that it
moves, so what is left is laid out as it was just when no node before the range leads behind it
(`Graph.renumbers_compact_iff`).
-/

open Relation

namespace FeatureLogic.Graph

/-- The node is not one of those from `first` to before `start`. -/
def Stays (first start n : Nat) : Prop := n < first ∨ start ≤ n

instance (first start n : Nat) : Decidable (Stays first start n) :=
  inferInstanceAs (Decidable (n < first ∨ start ≤ n))

/-- The second graph is the first one without the nodes from `first` to before `start`. What was
node `n` is node `μ n` now, with its type and with its edges to what they led to. -/
structure Renumbers (g : Graph) (first start : Nat) (μ : Nat → Nat) (g' : Graph) : Prop where
  low : ∀ n < first, μ n = n
  lowered : ∀ n, start ≤ n → μ n + (start - first) = n
  size_eq : g'.size + (start - first) = g.size
  type_eq : ∀ {n : Nat}, Stays first start n → g'.type (μ n) = g.type n
  edges_eq : ∀ {n : Nat}, Stays first start n →
    g'.edges (μ n) = Edges.mapTargets μ (g.edges n)

section Renumbers

variable {g g' : Graph} {first start : Nat} {μ : Nat → Nat}

theorem Renumbers.injOn (h : g.Renumbers first start μ g') (hfirst : first ≤ start) :
    Set.InjOn μ {n | Stays first start n} := by
  intro n hn m hm heq
  -- a number before the range stays before it, and a lowered one does not get there
  rcases hn with hn | hn <;> rcases hm with hm | hm
  · rwa [h.low n hn, h.low m hm] at heq
  · have hleft := h.low n hn
    have hright := h.lowered m hm
    omega
  · have hleft := h.lowered n hn
    have hright := h.low m hm
    omega
  · rw [← h.lowered n hn, ← h.lowered m hm, heq]

/-- Where nothing that stays leads into the range, what is below a node that stays is laid out as
before. -/
theorem Renumbers.isomorphic (h : g.Renumbers first start μ g') (hfirst : first ≤ start)
    (hclear : ∀ {n : Nat} {e : Edge}, Stays first start n → e ∈ g.edges n →
      Stays first start e.target) {n : Nat} (hn : Stays first start n) :
    g.layout.Isomorphic n g'.layout (μ n) := by
  have hreach : ∀ {m : Nat}, g.layout.Reach n m → Stays first start m := by
    intro m hm
    induction hm with
    | refl => exact hn
    | tail _ hstep ih =>
      obtain ⟨e, he, rfl⟩ := hstep
      exact hclear ih he
  exact ⟨μ, rfl, (h.injOn hfirst).mono fun m hm => hreach hm, fun m hm =>
    ⟨h.type_eq (hreach hm), h.edges_eq (hreach hm)⟩⟩

end Renumbers

section Compact

variable {g : Graph} {first start : Nat}

theorem shifted_of_lt {n : Nat} (h : n < start) : shifted first start n = n :=
  if_neg (Nat.not_le.2 h)

theorem shifted_eq_self_iff (hfirst : first ≤ start) {n : Nat} :
    shifted first start n = n ↔ first = start ∨ n < start := by
  by_cases hn : start ≤ n
  · rw [shifted_of_le hn]
    show n - (start - first) = n ↔ _
    omega
  · simp [shifted_of_lt (Nat.lt_of_not_le hn), Nat.lt_of_not_le hn]

/-- Each node that stays has its type. The edges of the moved nodes lead to where their targets are
now; the edges of the others are as they were. -/
theorem edges_compact (hfirst : first ≤ start) (hstart : start ≤ g.size) {n : Nat}
    (hn : Stays first start n) :
    (g.compact first start).type (shifted first start n) = g.type n ∧
    (g.compact first start).edges (shifted first start n) =
      if n < first then g.edges n else Edges.mapTargets (shifted first start) (g.edges n) := by
  rcases hn with hn | hn
  · rw [shifted_of_lt (by omega), type, edges, node_compact_of_lt hfirst hstart hn, if_pos hn]
    exact ⟨rfl, rfl⟩
  · by_cases hlow : n < first
    · -- then the range is empty, and nothing is moved
      obtain rfl : first = start := by omega
      omega
    · rw [type, edges, node_compact_shifted hfirst hstart hn, if_neg hlow]
      exact ⟨rfl, rfl⟩

/-- Where no node that stays leads into the range, compaction drops just that range and keeps the
structure below every other node, if and only if the range is empty or no node before it leads
behind it. -/
theorem renumbers_compact_iff (hfirst : first ≤ start) (hstart : start ≤ g.size)
    (hclear : ∀ {n : Nat} {e : Edge}, Stays first start n → e ∈ g.edges n →
      Stays first start e.target) :
    (g.Renumbers first start (shifted first start) (g.compact first start) ∧
      ∀ n, Stays first start n →
        g.layout.Isomorphic n (g.compact first start).layout (shifted first start n)) ↔
    (first = start ∨ ∀ n < first, ∀ e ∈ g.edges n, e.target < start) := by
  constructor
  · rintro ⟨h, -⟩
    refine or_iff_not_imp_left.2 fun hne n hn e he => ?_
    -- the edges of a node before the range are the same, though their targets should have moved
    have hedges := h.edges_eq (.inl hn)
    rw [(edges_compact hfirst hstart (.inl hn)).2, if_pos hn] at hedges
    have hfixed : shifted first start e.target = e.target := by
      have hmap : (g.edges n).map (fun d => Edge.mk d.feature (shifted first start d.target)) =
          (g.edges n).map id := hedges.symm.trans (List.map_id _).symm
      exact congrArg Edge.target (List.map_inj_left.1 hmap e he)
    exact ((shifted_eq_self_iff hfirst).1 hfixed).resolve_left hne
  · intro hback
    have hedges : ∀ n < first, Edges.mapTargets (shifted first start) (g.edges n) = g.edges n := by
      intro n hn
      refine Edges.mapTargets_id fun e he => (shifted_eq_self_iff hfirst).2 ?_
      exact hback.imp_right fun hback => hback n hn e he
    have h : g.Renumbers first start (shifted first start) (g.compact first start) := {
      low := fun n hn => shifted_of_lt (by omega)
      lowered := fun n hn => by
        rw [shifted_of_le hn]
        omega
      size_eq := by
        rw [size_compact g hfirst hstart]
        omega
      type_eq := fun hn => (edges_compact hfirst hstart hn).1
      edges_eq := fun {n} hn => by
        rw [(edges_compact hfirst hstart hn).2]
        split
        · rename_i hlow
          exact (hedges n hlow).symm
        · rfl }
    exact ⟨h, fun n hn => h.isomorphic hfirst hclear hn⟩

end Compact

/-! ### Two nodes dropped, and one -/

theorem clear_of_forall_lt {g : Graph} {first start : Nat} (h : ∀ n < g.size, Stays first start n →
    ∀ e ∈ g.edges n, Stays first start e.target) {n : Nat} {e : Edge} (hn : Stays first start n)
    (he : e ∈ g.edges n) : Stays first start e.target := by
  refine h n (Nat.lt_of_not_le fun hle => ?_) hn e he
  rw [edges_of_le hle] at he
  cases he

/-- Nodes 1 and 2 are in no one's way. Behind them are two nodes on a cycle, one of which leads to
the first node. -/
def straddled : Graph := .ofNodes [(.of 1, [⟨0, 0⟩]), (.of 2, [⟨0, 4⟩]), (.top, []),
  (.of 3, [⟨0, 0⟩, ⟨1, 4⟩]), (.of 4, [⟨0, 3⟩])]

/-- The cycle is moved down, and the edge from it to the first node leads there still. -/
theorem renumbers_compact_iff_straddled : 1 ≤ 3 ∧ 3 ≤ straddled.size ∧
    (∀ {n : Nat} {e : Edge}, Stays 1 3 n → e ∈ straddled.edges n → Stays 1 3 e.target) ∧
    (∀ n < 1, ∀ e ∈ straddled.edges n, e.target < 3) ∧
    [0, 1, 2].map (straddled.compact 1 3).edges = [[⟨0, 0⟩], [⟨0, 0⟩, ⟨1, 2⟩], [⟨0, 1⟩]] ∧
    straddled.Renumbers 1 3 (shifted 1 3) (straddled.compact 1 3) ∧
    straddled.layout.Isomorphic 4 (straddled.compact 1 3).layout 2 := by
  have hclear : ∀ {n : Nat} {e : Edge}, Stays 1 3 n → e ∈ straddled.edges n → Stays 1 3 e.target :=
    clear_of_forall_lt (by decide)
  have hback : ∀ n < 1, ∀ e ∈ straddled.edges n, e.target < 3 := by decide
  have h := (renumbers_compact_iff (by decide) (by decide) hclear).2 (.inr hback)
  exact ⟨by decide, by decide, hclear, hback, by decide +kernel, h.1, h.2 4 (by decide)⟩

/-- The first node leads to the third one, which is moved to the place of the second. -/
def overtaken : Graph := .ofNodes [(.of 1, [⟨0, 2⟩]), (.of 2, []), (.of 3, []), (.of 4, [])]

/-- A node before the range that leads behind it keeps its edge as it was, which comes to lead to
the node after the one that it led to. -/
theorem not_renumbers_compact : ¬ ∀ (g : Graph) (first start : Nat), first ≤ start →
    start ≤ g.size → (∀ {n : Nat} {e : Edge}, Stays first start n → e ∈ g.edges n →
      Stays first start e.target) → ∀ n, Stays first start n →
    (g.compact first start).edges (shifted first start n) =
      Edges.mapTargets (shifted first start) (g.edges n) := by
  intro hall
  have hedges := hall overtaken 1 2 (by decide) (by decide) (clear_of_forall_lt (by decide)) 0
    (by decide)
  have hkept : (overtaken.compact 1 2).edges 0 = [⟨0, 2⟩] := by decide +kernel
  have hmoved : Edges.mapTargets (shifted 1 2) (overtaken.edges 0) = [⟨0, 1⟩] := by decide
  rw [hmoved] at hedges
  exact absurd (hkept.symm.trans hedges) (by decide)

end FeatureLogic.Graph
