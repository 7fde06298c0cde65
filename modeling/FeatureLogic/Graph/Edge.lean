import FeatureLogic.Ident

/-!
Edges and edge lists. An edge list is kept in strictly rising order of its features
(`Edges.Sorted`), so a node has at most one value for a feature.
-/

namespace FeatureLogic

/-- A labelled arc to a node, which other arcs may share. -/
structure Edge where
  feature : FeatureId
  target : NodeId
  deriving DecidableEq, Repr

namespace Edges

/-- Features rise strictly along the list. -/
def Sorted (edges : List Edge) : Prop := edges.Pairwise fun d e => d.feature < e.feature

/-- The target of a feature. -/
def target? (feature : FeatureId) (edges : List Edge) : Option NodeId :=
  (edges.find? fun e => e.feature == feature).map Edge.target

/-- The list with one target for a feature, in place of the one it had. -/
def put (feature : FeatureId) (target : NodeId) : List Edge → List Edge
  | [] => [⟨feature, target⟩]
  | e :: rest =>
    if feature < e.feature then ⟨feature, target⟩ :: e :: rest
    else if feature = e.feature then ⟨feature, target⟩ :: rest
    else e :: put feature target rest

/-- The list without a feature. -/
def drop (feature : FeatureId) (edges : List Edge) : List Edge :=
  edges.filter fun e => e.feature != feature

/-- Two lists as one, by feature; of equal features that of the first list comes first. -/
def merge (first second : List Edge) : List Edge :=
  List.merge first second fun d e => d.feature ≤ e.feature

/-- Every target moved by a function. -/
def mapTargets (f : NodeId → NodeId) (edges : List Edge) : List Edge :=
  edges.map fun e => { e with target := f e.target }

@[simp] theorem target?_nil (feature : FeatureId) : target? feature [] = none := rfl

theorem target?_cons (feature : FeatureId) (e : Edge) (rest : List Edge) :
    target? feature (e :: rest) =
      if e.feature = feature then some e.target else target? feature rest := by
  by_cases h : e.feature = feature <;> simp [target?, h]

/-- A feature that is put changes no other feature. -/
theorem target?_put (feature f : FeatureId) (target : NodeId) (edges : List Edge) :
    target? f (put feature target edges) =
      if feature = f then some target else target? f edges := by
  induction edges with
  | nil => simp [put, target?_cons]
  | cons e rest ih =>
    simp only [put]
    split
    · simp [target?_cons]
    · split
      · rename_i h
        by_cases hf : feature = f <;> simp [target?_cons, ← h, hf]
      · rename_i h
        by_cases he : e.feature = f
        · subst he
          simp [target?_cons, h]
        · simp [target?_cons, he, ih]

/-- A feature that is dropped has no value, and every other feature keeps its own. -/
theorem target?_drop (feature f : FeatureId) (edges : List Edge) :
    target? f (drop feature edges) = if feature = f then none else target? f edges := by
  induction edges with
  | nil => simp [drop]
  | cons e rest ih =>
    simp only [drop, List.filter_cons] at ih ⊢
    by_cases he : e.feature = feature
    · subst he
      by_cases hf : e.feature = f <;> simp_all [target?_cons]
    · by_cases hf : e.feature = f
      · subst hf
        simp [target?_cons, he, Ne.symm he]
      · simp [target?_cons, he, hf, ih]

theorem sorted_nil : Sorted [] := List.Pairwise.nil

theorem mem_put {feature : FeatureId} {target : NodeId} {edges : List Edge} {e : Edge}
    (h : e ∈ put feature target edges) : e = ⟨feature, target⟩ ∨ e ∈ edges := by
  induction edges with
  | nil => simpa [put] using h
  | cons d rest ih =>
    simp only [put] at h
    split at h
    · simpa using h
    · split at h <;> simp only [List.mem_cons] at h ⊢
      · exact h.imp_right Or.inr
      · exact h.elim (fun h => .inr (.inl h)) fun h => (ih h).imp_right Or.inr

theorem sorted_put {edges : List Edge} (h : Sorted edges) (feature : FeatureId) (target : NodeId) :
    Sorted (put feature target edges) := by
  induction edges with
  | nil => simp [put, Sorted]
  | cons d rest ih =>
    obtain ⟨hd, hrest⟩ := List.pairwise_cons.1 h
    simp only [put]
    split
    · rename_i hlt
      refine List.pairwise_cons.2 ⟨fun e he => ?_, h⟩
      rcases List.mem_cons.1 he with rfl | he
      · exact hlt
      · exact Nat.lt_trans hlt (hd e he)
    · split
      · rename_i heq
        exact List.pairwise_cons.2 ⟨fun e he => by simpa [heq] using hd e he, hrest⟩
      · rename_i hlt hne
        refine List.pairwise_cons.2 ⟨fun e he => ?_, ih hrest⟩
        rcases mem_put he with rfl | he
        · exact Nat.lt_of_le_of_ne (Nat.le_of_not_lt hlt) (Ne.symm hne)
        · exact hd e he

theorem sorted_drop {edges : List Edge} (h : Sorted edges) (feature : FeatureId) :
    Sorted (drop feature edges) :=
  h.sublist List.filter_sublist

end Edges

end FeatureLogic
