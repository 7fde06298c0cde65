import FeatureLogic.Notation.Reader
import FeatureLogic.Proofs.Lattice.Names
import FeatureLogic.Proofs.Notation.Scanning

/-!
Reading what was printed, turn by turn. When the text ahead begins with the token of a bracket, a
coreference, a type or a feature, the reader takes that token and does what it stands for.
-/

namespace FeatureLogic

/-- A node that was just added, with another type. -/
theorem Graph.setType_add (g : Graph) (type type' : TypeId) (edges : List Edge) :
    (g.add type edges).setType g.size type' = g.add type' edges := by
  simp only [setType, add, size]
  congr 1
  refine Array.ext (by simp) fun i hi hi' => ?_
  simp only [Array.getElem_modify, Array.getElem_push]
  grind [Node.fresh]

namespace Notation

namespace Reading

/-- The reader stands before this text. -/
def Before (r : Reading) (cs : List Char) : Prop :=
  r.scanner.ahead = none ∧ r.scanner.cursor.rest = cs

variable {r : Reading} {cs rest : List Char}

theorem take_of_scans (hr : r.Before cs) {token : Token} (h : Scans cs token rest) :
    ∃ scanner position, ({ r with scanner } : Reading).Before rest ∧
      ∀ expected k, r.take expected k = k { r with scanner } token position := by
  obtain ⟨graph, lattice, ⟨cursor, ahead⟩, corefs, value⟩ := r
  obtain ⟨hahead, hcs⟩ := hr
  cases hahead
  obtain ⟨position, cursor', hscan, hrest⟩ := h cursor hcs
  refine ⟨⟨cursor', none⟩, position, ⟨rfl, hrest⟩, fun expected k => ?_⟩
  simp only [take, Scanner.next, hscan]

/-! ## Structures -/

/-- An open bracket begins a new node. -/
theorem readStructure_bracket (hr : r.Before cs) (h : Scans cs .openBracket rest) :
    ∃ scanner, ({ r with scanner } : Reading).Before rest ∧
      r.readStructure = .next { r.newNode with scanner } [.type r.graph.size] := by
  obtain ⟨scanner, position, hbefore, htake⟩ := take_of_scans hr h
  exact ⟨scanner, hbefore, htake _ _⟩

variable {number : Nat} {cs₁ cs₂ : List Char}

/-- A known coreference stands for its node. -/
theorem readStructure_known (hr : r.Before cs) (hhash : Scans cs .hash cs₁)
    (hnumber : Scans cs₁ (.number number) rest) {node : NodeId}
    (hknown : r.corefs[number]? = some node) :
    ∃ scanner, ({ r with scanner } : Reading).Before rest ∧
      r.readStructure = .next { r with scanner, value := node } [] := by
  obtain ⟨scanner₁, _, hbefore₁, htake₁⟩ := take_of_scans hr hhash
  obtain ⟨scanner, _, hbefore, htake⟩ := take_of_scans hbefore₁ hnumber
  refine ⟨scanner, hbefore, ?_⟩
  rw [readStructure, htake₁]
  simp only [htake, hknown]

/-- A new coreference and the bracket after it begin a new node. -/
theorem readStructure_new (hr : r.Before cs) (hhash : Scans cs .hash cs₁)
    (hnumber : Scans cs₁ (.number number) cs₂) (hbracket : Scans cs₂ .openBracket rest)
    (hnew : r.corefs[number]? = none) :
    ∃ scanner, ({ r with scanner } : Reading).Before rest ∧ r.readStructure =
      .next { r.newNode.define number r.graph.size with scanner } [.type r.graph.size] := by
  obtain ⟨scanner₁, _, hbefore₁, htake₁⟩ := take_of_scans hr hhash
  obtain ⟨scanner₂, _, hbefore₂, htake₂⟩ := take_of_scans hbefore₁ hnumber
  have hbefore₃ : ({ r.newNode.define number r.graph.size with scanner := scanner₂ } :
    Reading).Before cs₂ := hbefore₂
  obtain ⟨scanner, _, hbefore, htake₃⟩ := take_of_scans hbefore₃ hbracket
  refine ⟨scanner, hbefore, ?_⟩
  rw [readStructure, htake₁]
  simp only [htake₂, hnew]
  exact htake₃ _ _

/-! ## Types and features -/

/-- The text that a type is printed as is read as that type. -/
theorem readType_typeText (hr : r.Before cs) (node : NodeId) {t : TypeId} (hl : r.lattice.AtomsApart)
    (hreadable : ∀ name ∈ r.lattice.hierarchy.names.toList, Readable name)
    (ht : r.lattice.HasType t) (hcs : cs = (typeText r.lattice t).toList ++ rest)
    (hrest : EndsWord rest) :
    ∃ scanner, ({ r with scanner } : Reading).Before rest ∧ r.readType node =
      .next { r with graph := r.graph.setType node t, scanner } [.features node] := by
  obtain ⟨name, hname⟩ := ht.exists_typeName
  rcases Lattice.typeName_cases hname with ⟨i, rfl, hatom, hi⟩ | ⟨a, rfl, hatom, ha⟩
  · have hscan : Scans cs (.word name) rest := by
      rw [hcs, typeText, hname]
      simp only [hatom]
      exact scans_readable (hreadable _ (NameTable.mem_of_name hi)) hrest
    obtain ⟨scanner, _, hbefore, htake⟩ := take_of_scans hr hscan
    refine ⟨scanner, hbefore, ?_⟩
    rw [readType, htake]
    simp only [Lattice.typeId_of_hierarchy hi, Option.getD_some]
  · have hscan : Scans cs (.quoted name) rest := by
      rw [hcs, typeText, hname]
      simp only [hatom]
      exact scans_quotedName name rest
    obtain ⟨scanner, _, hbefore, htake⟩ := take_of_scans hr hscan
    refine ⟨scanner, hbefore, ?_⟩
    rw [readType, htake]
    simp only [hl.intern_eq ha]

/-- A closing bracket ends a node. -/
theorem readFeature_close (names : NameTable) (hr : r.Before cs) (node : NodeId)
    (h : Scans cs .closeBracket rest) :
    ∃ scanner, ({ r with scanner } : Reading).Before rest ∧
      r.readFeature names node = .next { r with scanner, value := node } [] := by
  obtain ⟨scanner, _, hbefore, htake⟩ := take_of_scans hr h
  exact ⟨scanner, hbefore, htake _ _⟩

/-- The text that a feature is printed as is read as that feature. -/
theorem readFeature_featureText {names : NameTable} (hr : r.Before cs) (node : NodeId)
    {feature : FeatureId} (hreadable : ∀ name ∈ names.toList, Readable name)
    (hf : feature < names.size) (hcs : cs = ' ' :: ((featureText names feature).toList ++ rest))
    (hrest : EndsWord rest) :
    ∃ scanner, ({ r with scanner } : Reading).Before rest ∧ r.readFeature names node =
      .next { r with scanner } [.whole, .attach node feature, .features node] := by
  obtain ⟨name, hname⟩ := NameTable.exists_name hf
  have hscan : Scans cs (.word name) rest := by
    rw [hcs, featureText, hname]
    exact (scans_readable (hreadable _ (NameTable.mem_of_name hname)) hrest).blank
  obtain ⟨scanner, _, hbefore, htake⟩ := take_of_scans hr hscan
  refine ⟨scanner, hbefore, ?_⟩
  rw [readFeature, htake]
  simp only [NameTable.index?_eq_some_iff.2 hname]

end Reading

end Notation

end FeatureLogic
