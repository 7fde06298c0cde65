/-!
Name tables: every name has one number, given in the order in which names first come up, and
keeps it. `name?` and `index?` undo each other (`index?_eq_some_iff`).
-/

namespace FeatureLogic

/-- Names without repetition; the number of a name is its position. -/
structure NameTable where
  names : Array String
  nodup : names.toList.Nodup

namespace NameTable

def empty : NameTable := ⟨#[], List.nodup_nil⟩

instance : Inhabited NameTable := ⟨empty⟩

def size (t : NameTable) : Nat := t.names.size

def isEmpty (t : NameTable) : Bool := t.names.isEmpty

/-- The number of a name already in the table. -/
def index? (t : NameTable) (name : String) : Option Nat := t.names.idxOf? name

/-- The name with a number. -/
def name? (t : NameTable) (index : Nat) : Option String := t.names[index]?

theorem not_mem_of_index?_eq_none {t : NameTable} {name : String} (h : t.index? name = none) :
    name ∉ t.names.toList := by
  simpa [index?, Array.idxOf?_eq_none_iff] using h

/-- Adds a name at the end; a name that is there already changes nothing. -/
def insert (t : NameTable) (name : String) : NameTable :=
  match h : t.index? name with
  | some _ => t
  | none =>
    ⟨t.names.push name, by
      have hn := not_mem_of_index?_eq_none h
      rw [Array.toList_push, List.nodup_append]
      refine ⟨t.nodup, by simp, fun a ha b hb => ?_⟩
      rw [List.mem_singleton.1 hb]
      exact fun hab => hn (hab ▸ ha)⟩

/-- The number of a name, which is added when it is new. -/
def intern (t : NameTable) (name : String) : Nat × NameTable :=
  match t.index? name with
  | some index => (index, t)
  | none => (t.size, t.insert name)

/-- All names in the order of their numbers. -/
def toList (t : NameTable) : List String := t.names.toList

/-- The table of a list of names; of a repeated name the first place counts. -/
def ofList (names : List String) : NameTable := names.foldl insert empty

theorem index?_eq_some_iff {t : NameTable} {name : String} {index : Nat} :
    t.index? name = some index ↔ t.name? index = some name := by
  simp only [index?, name?, Array.idxOf?_eq_map_finIdxOf?_val, Option.map_eq_some_iff,
    Array.finIdxOf?_eq_some_iff]
  constructor
  · rintro ⟨i, ⟨hi, -⟩, rfl⟩
    exact Array.getElem?_eq_some_iff.2 ⟨i.isLt, hi⟩
  · intro h
    obtain ⟨hlt, hget⟩ := Array.getElem?_eq_some_iff.1 h
    refine ⟨⟨index, hlt⟩, ⟨hget, fun j hji hj => ?_⟩, rfl⟩
    have hne := List.pairwise_iff_getElem.1 t.nodup j index (by simp) (by simpa using hlt) hji
    exact hne (by simpa using hj.trans hget.symm)

theorem size_insert_of_new {t : NameTable} {name : String} (h : t.index? name = none) :
    (t.insert name).size = t.size + 1 := by
  unfold insert
  split
  · simp_all
  · simp [size]

end NameTable

end FeatureLogic
