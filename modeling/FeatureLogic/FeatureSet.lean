import FeatureLogic.Ident

/-!
Finite sets of features, kept as strictly rising lists.
-/

namespace FeatureLogic

/-- A set of features, upwards and each once. -/
structure FeatureSet where
  toList : List FeatureId
  deriving DecidableEq, Repr

namespace FeatureSet

def empty : FeatureSet := ⟨[]⟩

instance : Inhabited FeatureSet := ⟨empty⟩

def contains (s : FeatureSet) (feature : FeatureId) : Bool := s.toList.contains feature

def size (s : FeatureSet) : Nat := s.toList.length

def isEmpty (s : FeatureSet) : Bool := s.toList.isEmpty

/-- A rising list with one more feature in its place. -/
def place (feature : FeatureId) : List FeatureId → List FeatureId
  | [] => [feature]
  | f :: rest =>
    if feature < f then feature :: f :: rest
    else if feature = f then f :: rest
    else f :: place feature rest

def insert (s : FeatureSet) (feature : FeatureId) : FeatureSet := ⟨place feature s.toList⟩

def ofList (features : List FeatureId) : FeatureSet := features.foldl insert empty

theorem mem_place {feature g : FeatureId} {list : List FeatureId} :
    g ∈ place feature list ↔ g = feature ∨ g ∈ list := by
  induction list with
  | nil => simp [place]
  | cons f rest ih =>
    simp only [place]
    split
    · simp
    · split
      · rename_i h
        simp [h]
      · simp only [List.mem_cons, ih]
        exact or_left_comm

@[simp] theorem contains_insert (s : FeatureSet) (feature g : FeatureId) :
    (s.insert feature).contains g = (g == feature || s.contains g) := by
  rw [Bool.eq_iff_iff]
  simp [contains, insert, mem_place]

end FeatureSet

end FeatureLogic
