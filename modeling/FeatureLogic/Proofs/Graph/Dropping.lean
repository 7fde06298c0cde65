import FeatureLogic.Proofs.Layout

/-!
Dropping nodes. What was there before nodes were added stays when they are dropped, and so do later
nodes that are moved down in their place (`Graph.Extends.compact`).
-/

open Relation

namespace FeatureLogic

namespace Graph

/-! ## Truncation -/

section Truncate

variable {g₀ g : Graph} (hext : g₀.Extends g)
include hext

theorem Extends.truncate : g₀.Extends (g.truncate g₀.size) where
  size_le := by
    rw [size_truncate]
    exact Nat.le_min.2 ⟨Nat.le_refl _, hext.size_le⟩
  type_eq hn := by
    rw [type, node_truncate, if_pos hn]
    exact hext.type_eq hn
  edges_eq hn := by
    rw [edges, node_truncate, if_pos hn]
    exact hext.edges_eq hn

theorem Extends.sound_truncate (h₀ : g₀.Sound) (hg : g.Sound) : (g.truncate g₀.size).Sound where
  generation_pos := hg.generation_pos
  stamp_le n := by
    rw [node_truncate]
    split
    · exact hg.stamp_le n
    · exact Nat.zero_le _
  sorted n := by
    rw [edges, node_truncate]
    split
    · exact hg.sorted n
    · exact Edges.sorted_nil
  target_lt {n e} he := by
    rw [edges, node_truncate] at he
    split at he
    · rename_i hn
      have he : e ∈ g.edges n := he
      rw [hext.edges_eq hn] at he
      exact Nat.lt_of_lt_of_le (h₀.target_lt he) hext.truncate.size_le
    · cases he

omit hext in
theorem AtRest.truncate (hr : g.AtRest) (hg : g.Stamped) (size : Nat) :
    (g.truncate size).AtRest := by
  intro n
  rw [node_truncate]
  split
  · exact hr n
  · exact Nat.ne_of_lt hg.generation_pos

end Truncate

/-! ## Compaction -/

section Compact

theorem shifted_of_le {first start n : Nat} (h : start ≤ n) :
    shifted first start n = n - (start - first) := if_pos h

theorem generation_compact (g : Graph) (first start : Nat) :
    (g.compact first start).generation = g.generation := by
  unfold Graph.compact
  split <;> rfl

/-- Compaction moves nodes with their slots. -/
theorem exists_slots_compact (g : Graph) (first start m : Nat) :
    ∃ k, ((g.compact first start).node m).slots = (g.node k).slots := by
  have hnone : (g.nodes[g.size]?.getD default).slots = (default : Node).slots := by
    rw [size, Array.getElem?_eq_none (Nat.le_refl _)]
    rfl
  unfold compact
  split
  · exact ⟨m, rfl⟩
  · simp only [node, Array.getD_eq_getD_getElem?, Array.getElem?_append, Array.take_eq_extract,
      Array.getElem?_map, Array.getElem?_extract]
    split
    · split
      · exact ⟨_, rfl⟩
      · exact ⟨_, hnone.symm⟩
    · split
      · refine ⟨start + (m - (g.nodes.extract 0 first).size), ?_⟩
        cases g.nodes[start + (m - (g.nodes.extract 0 first).size)]? <;> rfl
      · exact ⟨_, hnone.symm⟩

theorem AtRest.compact {g : Graph} (hr : g.AtRest) (first start : Nat) :
    (g.compact first start).AtRest := by
  intro n
  obtain ⟨k, hk⟩ := exists_slots_compact g first start n
  rw [hk, generation_compact]
  exact hr k

theorem compact_self (g : Graph) (first : Nat) : g.compact first first = g :=
  if_pos (Nat.le_refl first)

section Node

variable {g : Graph} {first start : Nat} (hfirst : first ≤ start) (hstart : start ≤ g.size)
include hfirst hstart

theorem node_compact_of_lt {n : Nat} (hn : n < first) :
    (g.compact first start).node n = g.node n := by
  rcases Nat.eq_or_lt_of_le hfirst with rfl | hlt
  · rw [compact_self]
  · rw [node_compact g hlt hstart, if_pos hn]

/-- A node that is moved down has its edges moved along. -/
theorem node_compact_shifted {n : Nat} (hn : start ≤ n) :
    (g.compact first start).node (shifted first start n) =
      { g.node n with edges := Edges.mapTargets (shifted first start) (g.edges n) } := by
  rw [shifted_of_le hn]
  rcases Nat.eq_or_lt_of_le hfirst with rfl | hlt
  · have hid : ∀ m, shifted first first m = m := by
      intro m
      unfold shifted
      split <;> simp
    have hmap : Edges.mapTargets (shifted first first) (g.edges n) = g.edges n := by
      simp [Edges.mapTargets, hid]
    rw [compact_self, Nat.sub_self, Nat.sub_zero, hmap]
    rfl
  · have hback : n - (start - first) + (start - first) = n := by omega
    rw [node_compact g hlt hstart, if_neg (by omega), hback]

omit hstart in
theorem exists_shifted_of_le {n : Nat} (hn : first ≤ n) :
    ∃ m : Nat, start ≤ m ∧ n = shifted first start m ∧ n + start = m + first := by
  refine ⟨n + (start - first), by omega, ?_, by omega⟩
  rw [shifted_of_le (by omega)]
  exact (Nat.add_sub_cancel n _).symm

end Node

variable {g₀ g : Graph} (hext : g₀.Extends g) {start : Nat} (hfirst : g₀.size ≤ start)
  (hstart : start ≤ g.size)
include hext hfirst hstart

theorem Extends.compact : g₀.Extends (g.compact g₀.size start) where
  size_le := by
    rw [size_compact g hfirst hstart]
    omega
  type_eq hn := by
    rw [type, node_compact_of_lt hfirst hstart hn]
    exact hext.type_eq hn
  edges_eq hn := by
    rw [edges, node_compact_of_lt hfirst hstart hn]
    exact hext.edges_eq hn

variable (h₀ : g₀.Sound) (hg : g.Sound)
  (hnew : ∀ {n : Nat} {e : Edge}, start ≤ n → e ∈ g.edges n → start ≤ e.target)
include hg hnew

include h₀ in
theorem Extends.sound_compact (hr : g.AtRest) :
    (g.compact g₀.size start).Sound ∧ (g.compact g₀.size start).AtRest := by
  have hgen := generation_compact g g₀.size start
  -- a node is where it was, or it was moved down with its edges
  have hcases : ∀ n : Nat, (n < g₀.size ∧ (g.compact g₀.size start).node n = g.node n) ∨
      ∃ m : Nat, start ≤ m ∧ (g.compact g₀.size start).node n =
        { g.node m with edges := Edges.mapTargets (shifted g₀.size start) (g.edges m) } := by
    intro n
    rcases Nat.lt_or_ge n g₀.size with hn | hn
    · exact .inl ⟨hn, node_compact_of_lt hfirst hstart hn⟩
    · obtain ⟨m, hm, rfl, -⟩ := exists_shifted_of_le hfirst hn
      exact .inr ⟨m, hm, node_compact_shifted hfirst hstart hm⟩
  refine ⟨⟨hgen ▸ hg.generation_pos, fun n => ?_, fun n => ?_, fun {n e} he => ?_⟩, hr.compact _ _⟩
  · rw [hgen]
    rcases hcases n with ⟨-, heq⟩ | ⟨m, -, heq⟩ <;> rw [heq] <;> exact hg.stamp_le _
  · rw [edges]
    rcases hcases n with ⟨-, heq⟩ | ⟨m, -, heq⟩ <;> rw [heq]
    · exact hg.sorted n
    · exact Edges.sorted_mapTargets (hg.sorted m) _
  · rw [edges] at he
    rw [size_compact g hfirst hstart]
    rcases hcases n with ⟨hn, heq⟩ | ⟨m, hm, heq⟩ <;> rw [heq] at he
    · have he : e ∈ g.edges n := he
      rw [hext.edges_eq hn] at he
      exact Nat.lt_of_lt_of_le (h₀.target_lt he) (by omega)
    · obtain ⟨d, hd, -, htarget⟩ := Edges.mem_mapTargets.1 he
      have hlow := hnew hm hd
      have hhigh := hg.target_lt hd
      rw [← htarget, shifted_of_le hlow]
      exact Nat.sub_lt_sub_right (by omega) hhigh

end Compact

/-- What is moved down leads only to what is moved down. -/
theorem le_of_reach_compact {g : Graph} {first start : Nat} (hfirst : first ≤ start)
    (hstart : start ≤ g.size)
    (hnew : ∀ {n : Nat} {e : Edge}, start ≤ n → e ∈ g.edges n → start ≤ e.target) {k n : Nat}
    (hk : start ≤ k) (hn : (g.compact first start).layout.Reach (shifted first start k) n) :
    first ≤ n := by
  suffices hmoved : ∃ m : Nat, start ≤ m ∧ shifted first start m = n by
    obtain ⟨m, hm, rfl⟩ := hmoved
    rw [shifted_of_le hm]
    show first ≤ m - (start - first)
    omega
  induction hn with
  | refl => exact ⟨k, hk, rfl⟩
  | tail _ hstep ih =>
    obtain ⟨e, he, rfl⟩ := hstep
    obtain ⟨m, hm, rfl⟩ := ih
    replace he : e ∈ ((g.compact first start).node (shifted first start m)).edges := he
    rw [node_compact_shifted hfirst hstart hm] at he
    obtain ⟨d, hd, -, htarget⟩ := Edges.mem_mapTargets.1 he
    exact ⟨d.target, hnew hm hd, htarget⟩

/-- What is moved down is laid out as before. -/
theorem isomorphic_compact {g : Graph} {first start : Nat} (hfirst : first ≤ start)
    (hstart : start ≤ g.size)
    (hnew : ∀ {n : Nat} {e : Edge}, start ≤ n → e ∈ g.edges n → start ≤ e.target) {k : Nat}
    (hk : start ≤ k) :
    g.layout.Isomorphic k (g.compact first start).layout (shifted first start k) := by
  have hreach : ∀ {n : Nat}, g.layout.Reach k n → start ≤ n := by
    intro n hn
    induction hn with
    | refl => exact hk
    | tail _ hstep ih =>
      obtain ⟨e, he, rfl⟩ := hstep
      exact hnew ih he
  refine ⟨shifted first start, rfl, fun n hn m hm heq => ?_, fun n hn => ⟨?_, ?_⟩⟩
  · have hcancel : ∀ {i j : Nat}, start ≤ i → start ≤ j →
        i - (start - first) = j - (start - first) → i = j := by omega
    rw [shifted_of_le (hreach hn), shifted_of_le (hreach hm)] at heq
    exact hcancel (hreach hn) (hreach hm) heq
  · show Graph.type _ _ = g.type n
    rw [type, node_compact_shifted hfirst hstart (hreach hn)]
    rfl
  · show Graph.edges _ _ = _
    rw [edges, node_compact_shifted hfirst hstart (hreach hn)]
    rfl

end Graph

end FeatureLogic
