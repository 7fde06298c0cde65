import FeatureLogic.Notation.Reader
import FeatureLogic.Proofs.Notation.Scanning
import FeatureLogic.Proofs.Shape

/-!
Phrases: feature structures as they are written, and the structure that a phrase denotes.

```text
FS := '[' TYPE (FEATURE FS)* ']' | '#' n '[' TYPE (FEATURE FS)* ']' | '#' n
```

A bracket follows the first mention of a number, and no later one, be it inside that bracket
(`Phrase.WellNumbered`). The brackets of a phrase are the nodes of what it denotes, in the order in
which they are opened; a number alone stands for the bracket that has it, and of several values for
one feature the last one counts (`Phrase.shape`).
-/

namespace FeatureLogic.Notation

/-! ## Syntax -/

/-- What stands for a type. -/
inductive TypeMark
  | number (n : Nat)
  | word (name : String)
  | quoted (name : String)

/-- What stands for a feature of the table. -/
inductive FeatureMark (names : NameTable)
  | number (feature : Fin names.size)
  | word (name : String) (feature : FeatureId) (known : names.index? name = some feature)

namespace FeatureMark

variable {names : NameTable}

def feature : FeatureMark names → FeatureId
  | number feature => feature
  | word _ feature _ => feature

def token : FeatureMark names → Token
  | number feature => .number feature
  | word name _ _ => .word name

end FeatureMark

mutual

/-- A feature structure as it is written. -/
inductive Phrase (names : NameTable)
  /-- A coreference alone. -/
  | again (number : Nat)
  /-- A type and features in brackets, maybe after a coreference. -/
  | bracket (number : Option Nat) (type : TypeMark) (pairs : Pairs names)

/-- Features with their values. -/
inductive Pairs (names : NameTable)
  | nil
  | cons (feature : FeatureMark names) (value : Phrase names) (rest : Pairs names)

end

namespace TypeMark

def token : TypeMark → Token
  | number n => .number n
  | word name => .word name
  | quoted name => .quoted name

/-- The type that a lattice has for a mark, and the lattice with the atom that a quoted name may
have made. -/
def resolve (l : Lattice) : TypeMark → TypeId × Lattice
  | number n => (if l.isGrammarType (.of n) then .of n else .top, l)
  | word name => ((l.typeId? name).getD .top, l)
  | quoted name => l.intern name

end TypeMark

variable {names : NameTable}

mutual

/-- The tokens of a phrase. -/
def Phrase.tokens : Phrase names → List Token
  | .again number => [.hash, .number number]
  | .bracket number type pairs =>
    number.toList.flatMap (fun n => [.hash, .number n]) ++
      .openBracket :: type.token :: (pairs.tokens ++ [.closeBracket])

def Pairs.tokens : Pairs names → List Token
  | .nil => []
  | .cons feature value rest => feature.token :: (value.tokens ++ rest.tokens)

end

mutual

/-- The coreference numbers in the order in which they are written, each with whether a bracket
follows it. -/
def Phrase.mentions : Phrase names → List (Nat × Bool)
  | .again number => [(number, false)]
  | .bracket number _ pairs => number.toList.map (·, true) ++ pairs.mentions

def Pairs.mentions : Pairs names → List (Nat × Bool)
  | .nil => []
  | .cons _ value rest => value.mentions ++ rest.mentions

end

/-- A bracket follows a number where it comes up for the first time, and nowhere else. -/
def Numbered : (Nat → Prop) → List (Nat × Bool) → Prop
  | _, [] => True
  | seen, (n, first) :: rest => (first = true ↔ ¬ seen n) ∧ Numbered (fun m => m = n ∨ seen m) rest

/-- A bracket follows the first mention of a number and no other. -/
def Phrase.WellNumbered (p : Phrase names) : Prop := Numbered (fun _ => False) p.mentions

/-- The numbers that have come up after some more mentions. -/
def Mentioned (seen : Nat → Prop) (mentions : List (Nat × Bool)) : Nat → Prop :=
  mentions.foldl (fun seen mention n => n = mention.1 ∨ seen n) seen

theorem mentioned_append (seen : Nat → Prop) (mentions more : List (Nat × Bool)) :
    Mentioned seen (mentions ++ more) = Mentioned (Mentioned seen mentions) more :=
  List.foldl_append

theorem numbered_append {seen : Nat → Prop} {mentions more : List (Nat × Bool)} :
    Numbered seen (mentions ++ more) ↔
      Numbered seen mentions ∧ Numbered (Mentioned seen mentions) more := by
  induction mentions generalizing seen with
  | nil => simp [Numbered, Mentioned]
  | cons mention mentions ih => simp only [List.cons_append, Numbered, ih, and_assoc]; rfl

/-- The numbers that a bracket follows are new, each of them once. -/
theorem Numbered.nodup {seen : Nat → Prop} {mentions : List (Nat × Bool)}
    (h : Numbered seen mentions) :
    ((mentions.filter Prod.snd).map Prod.fst).Nodup ∧
      ∀ n ∈ (mentions.filter Prod.snd).map Prod.fst, ¬ seen n := by
  induction mentions generalizing seen with
  | nil => exact ⟨List.nodup_nil, nofun⟩
  | cons mention mentions ih =>
    obtain ⟨n, first⟩ := mention
    obtain ⟨hfirst, hrest⟩ := h
    obtain ⟨hnodup, hnew⟩ := ih hrest
    cases first with
    | false => exact ⟨hnodup, fun m hm hseen => hnew m hm (.inr hseen)⟩
    | true =>
      refine ⟨List.nodup_cons.2 ⟨fun hn => hnew n hn (.inl rfl), hnodup⟩, fun m hm => ?_⟩
      rcases List.mem_cons.1 hm with rfl | hm
      · exact hfirst.1 rfl
      · exact fun hseen => hnew m hm (.inr hseen)

/-! ## What a phrase denotes -/

mutual

/-- The number of brackets. -/
def Phrase.size : Phrase names → Nat
  | .again _ => 0
  | .bracket _ _ pairs => pairs.size + 1

def Pairs.size : Pairs names → Nat
  | .nil => 0
  | .cons _ value rest => value.size + rest.size

end

mutual

/-- The brackets that have a number. Brackets are counted in the order in which they are opened,
from `first` on. -/
def Phrase.places (first : NodeId) : Phrase names → List (Nat × NodeId)
  | .again _ => []
  | .bracket number _ pairs => number.toList.map (·, first) ++ pairs.places (first + 1)

def Pairs.places (first : NodeId) : Pairs names → List (Nat × NodeId)
  | .nil => []
  | .cons _ value rest => value.places first ++ rest.places (first + value.size)

end

/-- The node that a phrase stands for, when a number stands for the node that `place` gives. -/
def Phrase.root (place : Nat → NodeId) (first : NodeId) : Phrase names → NodeId
  | .again number => place number
  | .bracket .. => first

/-- Features and values as they are written. -/
def Pairs.edges (place : Nat → NodeId) (first : NodeId) : Pairs names → List Edge
  | .nil => []
  | .cons feature value rest =>
    ⟨feature.feature, value.root place first⟩ :: rest.edges place (first + value.size)

/-- A bracket: its type, and its features and values in the order in which they are written. -/
structure Bracket where
  type : TypeMark
  edges : List Edge

mutual

/-- The brackets in the order in which they are opened. -/
def Phrase.brackets (place : Nat → NodeId) (first : NodeId) : Phrase names → List Bracket
  | .again _ => []
  | .bracket _ type pairs =>
    ⟨type, pairs.edges place (first + 1)⟩ :: pairs.brackets place (first + 1)

def Pairs.brackets (place : Nat → NodeId) (first : NodeId) : Pairs names → List Bracket
  | .nil => []
  | .cons _ value rest =>
    value.brackets place first ++ rest.brackets place (first + value.size)

end

/-- The node of a number, the first of which is node 0. -/
def Phrase.place (p : Phrase names) (n : Nat) : NodeId := ((p.places 0).lookup n).getD 0

/-- The brackets of a phrase, where a number stands for the bracket that has it. -/
def Phrase.drawing (p : Phrase names) : List Bracket := p.brackets p.place 0

/-- The types of brackets. A name may be that of an atom that came up in a bracket before. -/
def bracketTypes : Lattice → List Bracket → List TypeId
  | _, [] => []
  | l, b :: rest => (b.type.resolve l).1 :: bracketTypes (b.type.resolve l).2 rest

/-- The lattice with the atoms that came up in brackets. -/
def taught (l : Lattice) (brackets : List Bracket) : Lattice :=
  brackets.foldl (fun l b => (b.type.resolve l).2) l

/-- The structure that a phrase denotes: a node for each bracket, with the last value that is
written for a feature. -/
def Phrase.shape (l : Lattice) (p : Phrase names) : Shape where
  type n := (bracketTypes l p.drawing)[n]?.getD .top
  value? n f := p.drawing[n]?.bind fun b => Edges.target? f b.edges.reverse

/-! ### Laws -/

mutual

theorem Phrase.length_brackets (place : Nat → NodeId) (first : NodeId) :
    (p : Phrase names) → (p.brackets place first).length = p.size
  | .again _ => rfl
  | .bracket _ _ pairs => congrArg (· + 1) (pairs.length_brackets place (first + 1))

theorem Pairs.length_brackets (place : Nat → NodeId) (first : NodeId) :
    (pairs : Pairs names) → (pairs.brackets place first).length = pairs.size
  | .nil => rfl
  | .cons _ value rest => by
    rw [Pairs.brackets, List.length_append, value.length_brackets, rest.length_brackets, Pairs.size]

end

theorem taught_append (l : Lattice) (brackets more : List Bracket) :
    taught l (brackets ++ more) = taught (taught l brackets) more :=
  List.foldl_append

theorem length_bracketTypes (l : Lattice) (brackets : List Bracket) :
    (bracketTypes l brackets).length = brackets.length := by
  induction brackets generalizing l with
  | nil => rfl
  | cons b brackets ih => exact congrArg (· + 1) (ih _)

mutual

theorem Phrase.map_places (first : NodeId) : (p : Phrase names) →
    (p.places first).map Prod.fst = (p.mentions.filter Prod.snd).map Prod.fst
  | .again _ => rfl
  | .bracket number _ pairs => by
    rw [Phrase.places, Phrase.mentions, List.map_append, List.filter_append, List.map_append,
      pairs.map_places]
    cases number <;> rfl

theorem Pairs.map_places (first : NodeId) : (pairs : Pairs names) →
    (pairs.places first).map Prod.fst = (pairs.mentions.filter Prod.snd).map Prod.fst
  | .nil => rfl
  | .cons _ value rest => by
    rw [Pairs.places, Pairs.mentions, List.map_append, List.filter_append, List.map_append,
      value.map_places, rest.map_places]

end

theorem lookup_of_nodup {list : List (Nat × NodeId)} (h : (list.map Prod.fst).Nodup)
    {e : Nat × NodeId} (he : e ∈ list) : list.lookup e.1 = some e.2 := by
  induction list with
  | nil => cases he
  | cons d rest ih =>
    obtain ⟨n, node⟩ := d
    obtain ⟨hd, hrest⟩ := List.nodup_cons.1 h
    rcases List.mem_cons.1 he with rfl | he
    · exact List.lookup_cons_self
    · have hne : (e.1 == n) = false := beq_false_of_ne fun heq =>
        hd (List.mem_map.2 ⟨e, he, heq⟩)
      rw [List.lookup_cons, hne]
      exact ih hrest he

/-- Every number of a phrase has one bracket. -/
theorem Phrase.WellNumbered.place_eq {p : Phrase names} (h : p.WellNumbered) :
    ∀ e ∈ p.places 0, p.place e.1 = e.2 := by
  intro e he
  have hnodup : ((p.places 0).map Prod.fst).Nodup := by
    rw [p.map_places]
    exact (Numbered.nodup h).1
  rw [Phrase.place, lookup_of_nodup hnodup he]
  rfl

/-- A phrase alone has a bracket, with which it begins. -/
theorem Phrase.WellNumbered.root_eq {p : Phrase names} (h : p.WellNumbered) :
    p.root p.place 0 = 0 := by
  cases p with
  | again n => simp [Phrase.WellNumbered, Phrase.mentions, Numbered] at h
  | bracket number type pairs => rfl

end FeatureLogic.Notation
