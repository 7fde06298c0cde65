import Mathlib.Data.List.DropRight
import Mathlib.Data.Set.Operations
import Mathlib.Order.Interval.Set.Defs
import FeatureLogic.Restrictor.Encoding
import FeatureLogic.Proofs.Fallible
import FeatureLogic.Proofs.Graph.Trail
import FeatureLogic.Proofs.Sample

/-!
Restrictors written as feature structures. What the name of a type encodes is said without regard to
how the name is taken apart (`RestrictRule.Encodes`). A structure encodes a restrictor unless a node
of it is at fault, and then it has one rule for each of its nodes (`RestrictRules.mirrors_ofGraph`).
-/

open Relation

namespace FeatureLogic

namespace RestrictRule

/-! ## Lists in names -/

section Strip

variable {α : Type} {p : α → Bool}

/-- What stands between two ends is what is left when these are dropped. -/
theorem rdropWhile_dropWhile_eq {before middle after : List α}
    (hends : ∀ c ∈ before ++ after, p c = true) (hhead : ∀ c ∈ middle.head?, ¬ p c = true)
    (hlast : ∀ c ∈ middle.getLast?, ¬ p c = true) :
    ((before ++ middle ++ after).dropWhile p).rdropWhile p = middle := by
  have hbefore : ∀ c ∈ before, p c = true := fun c hc => hends c (List.mem_append_left _ hc)
  have hafter : ∀ c ∈ after, p c = true := fun c hc => hends c (List.mem_append_right _ hc)
  rw [List.append_assoc, List.dropWhile_append_of_pos hbefore]
  cases middle with
  | nil => rw [List.nil_append, List.dropWhile_eq_nil_iff.2 hafter, List.rdropWhile_nil]
  | cons c rest =>
    rw [List.cons_append, List.dropWhile_cons_of_neg (hhead c rfl), ← List.cons_append,
      List.rdropWhile, List.reverse_append,
      List.dropWhile_append_of_pos fun c hc => hafter c (List.mem_reverse.1 hc)]
    refine List.rdropWhile_eq_self_iff.2 fun hne => hlast _ ?_
    exact List.getLast?_eq_some_getLast hne

theorem exists_ends (p : α → Bool) (list : List α) : ∃ before after,
    list = before ++ (list.dropWhile p).rdropWhile p ++ after ∧
      (∀ c ∈ before ++ after, p c = true) ∧
      (∀ c ∈ ((list.dropWhile p).rdropWhile p).head?, ¬ p c = true) ∧
      ∀ c ∈ ((list.dropWhile p).rdropWhile p).getLast?, ¬ p c = true := by
  refine ⟨list.takeWhile p, (list.dropWhile p).rtakeWhile p, ?_, fun c hc => ?_, fun c hc => ?_,
    fun c hc => ?_⟩
  · rw [List.append_assoc, List.rdropWhile_append_rtakeWhile, List.takeWhile_append_dropWhile]
  · rcases List.mem_append.1 hc with hc | hc
    · exact List.mem_takeWhile_imp hc
    · exact List.mem_rtakeWhile_imp hc
  · -- the first that is left is the first that the first cut leaves
    obtain ⟨rest, hrest⟩ := List.rdropWhile_prefix p (l := list.dropWhile p)
    have hhead := List.head?_dropWhile_not p list
    rw [← hrest, List.head?_append, hc] at hhead
    simpa using hhead
  · obtain ⟨hne, rfl⟩ := List.mem_getLast?_eq_getLast hc
    exact List.rdropWhile_last_not p _ hne

end Strip

/-- No piece has the character at which a list is split. -/
theorem not_mem_of_mem_splitOn {α : Type} [DecidableEq α] {x : α} {list piece : List α}
    (h : piece ∈ list.splitOn x) : x ∉ piece := by
  induction list generalizing piece with
  | nil =>
    rw [List.splitOn_nil, List.mem_singleton] at h
    rw [h]
    exact List.not_mem_nil
  | cons c rest ih =>
    rw [List.splitOn_cons_eq_if_modifyHead] at h
    split at h
    · rcases List.mem_cons.1 h with rfl | h
      · exact List.not_mem_nil
      · exact ih h
    · rename_i hc
      cases hrest : rest.splitOn x with
      | nil => simp [hrest] at h
      | cons first others =>
        rw [hrest] at ih h
        rcases List.mem_cons.1 h with rfl | h
        · have hx := ih (List.mem_cons_self ..)
          have hne : ¬ x = c := fun heq => hc (by simp [heq])
          simp [hx, hne]
        · exact ih (List.mem_cons_of_mem _ h)

/-- The name lists the parts: it has pieces between commas, of which empty ones and the blanks at
the ends do not count, and there may be quotation marks around them all. -/
def Lists (name : String) (parts : List String) : Prop :=
  ∃ (before after : List Char) (pieces : List (List Char)),
    name.toList = before ++ [','].intercalate pieces ++ after ∧
    (∀ c ∈ before ++ after, c = '"') ∧
    (∀ c ∈ ([','].intercalate pieces).head?, c ≠ '"') ∧
    (∀ c ∈ ([','].intercalate pieces).getLast?, c ≠ '"') ∧
    pieces ≠ [] ∧ (∀ piece ∈ pieces, ',' ∉ piece) ∧
    parts = (pieces.map fun piece => String.ofList (Text.trim piece)).filter (!·.isEmpty)

theorem lists_iff {name : String} {parts : List String} :
    Lists name parts ↔ parts = nameParts name := by
  have hparts : nameParts name = ((((name.toList.dropWhile (· == '"')).rdropWhile
      (· == '"')).splitOn ',').map fun piece => String.ofList (Text.trim piece)).filter
        (!·.isEmpty) := rfl
  constructor
  · rintro ⟨before, after, pieces, hname, hends, hhead, hlast, hne, hcomma, rfl⟩
    rw [hparts, hname, rdropWhile_dropWhile_eq, List.splitOn_intercalate _ hcomma hne]
    · exact fun c hc => by simp [hends c hc]
    · exact fun c hc => by simp [hhead c hc]
    · exact fun c hc => by simp [hlast c hc]
  · rintro rfl
    obtain ⟨before, after, hname, hends, hhead, hlast⟩ := exists_ends (· == '"') name.toList
    refine ⟨before, after, _, ?_, ?_, ?_, ?_, by simp, fun piece hpiece =>
      not_mem_of_mem_splitOn hpiece, hparts⟩
    · rw [List.intercalate_splitOn]
      exact hname
    · exact fun c hc => by simpa using hends c hc
    · rw [List.intercalate_splitOn]
      exact fun c hc => by simpa using hhead c hc
    · rw [List.intercalate_splitOn]
      exact fun c hc => by simpa using hlast c hc

/-! ## What a type encodes -/

/-- The part stands for the type: the universal type's name for that type, and any other name for
the type that has it. -/
inductive Denotes (l : Lattice) : String → TypeId → Prop
  | top : Denotes l topName .top
  | named {part : String} {type : TypeId} (hne : part ≠ topName) (h : l.typeId? part = some type) :
    Denotes l part type

/-- The parts are a mode and further parts. Where the first names no mode, the mode keeps and all of
them are further parts. -/
inductive Divides : List String → RestrictMode → List String → Prop
  | moded {first : String} {rest : List String} {mode : RestrictMode}
    (h : RestrictMode.ofName? first = some mode) : Divides (first :: rest) mode rest
  | plain {parts : List String} (h : ∀ first ∈ parts.head?, RestrictMode.ofName? first = none) :
    Divides parts .keep parts

/-- The name of the type lists a mode, written or not, and these parts. -/
def Names (l : Lattice) (type : TypeId) (mode : RestrictMode) (listed : List String) : Prop :=
  ∃ name parts, l.typeName? type = some name ∧ Lists name parts ∧ Divides parts mode listed

/-- The type encodes the mode and the types to make others general to. -/
inductive Encodes (l : Lattice) : TypeId → RestrictMode → List TypeId → Prop
  | top : Encodes l .top .keep []
  | named {type : TypeId} {mode : RestrictMode} {listed : List String} {types : List TypeId}
    (hne : type ≠ .top) (h : Names l type mode listed)
    (htypes : List.Forall₂ (Denotes l) listed types) : Encodes l type mode types

/-- The type of the node encodes nothing: it has no name, or its name lists a part that stands for
no type. -/
inductive Fault (l : Lattice) (node : NodeId) (type : TypeId) : RestrictorError → Prop
  | unnamed (hne : type ≠ .top) (h : l.typeName? type = none) :
    Fault l node type (.unnamedType node)
  | unknown {mode : RestrictMode} {listed : List String} {part : String} (hne : type ≠ .top)
    (h : Names l type mode listed) (hmem : part ∈ listed) (hnone : ∀ t, ¬ Denotes l part t) :
    Fault l node type (.unknownType part)

variable {l : Lattice} {node : NodeId} {type : TypeId}

theorem Divides.unique {parts listed listed' : List String} {mode mode' : RestrictMode}
    (h : Divides parts mode listed) (h' : Divides parts mode' listed') :
    mode = mode' ∧ listed = listed' := by
  cases h with
  | moded h =>
    cases h' with
    | moded h' =>
      rw [h, Option.some.injEq] at h'
      exact ⟨h', rfl⟩
    | plain h' =>
      rw [h' _ rfl] at h
      cases h
  | plain h =>
    cases h' with
    | moded h' =>
      rw [h _ rfl] at h'
      cases h'
    | plain => exact ⟨rfl, rfl⟩

theorem Names.unique {listed listed' : List String} {mode mode' : RestrictMode}
    (h : Names l type mode listed) (h' : Names l type mode' listed') :
    mode = mode' ∧ listed = listed' := by
  obtain ⟨name, parts, hname, hparts, hdivides⟩ := h
  obtain ⟨name', parts', hname', hparts', hdivides'⟩ := h'
  rw [hname, Option.some.injEq] at hname'
  subst hname'
  rw [lists_iff] at hparts hparts'
  subst hparts
  subst hparts'
  exact hdivides.unique hdivides'

/-- A type that encodes a rule is not at fault. -/
theorem Encodes.not_fault {mode : RestrictMode} {types : List TypeId}
    (h : Encodes l type mode types) (e : RestrictorError) : ¬ Fault l node type e := by
  intro hfault
  cases h with
  | top => cases hfault <;> contradiction
  | named hne hnames htypes =>
    cases hfault with
    | unnamed _ hnone =>
      obtain ⟨name, -, hname, -⟩ := hnames
      rw [hnone] at hname
      cases hname
    | unknown _ hnames' hmem hnone =>
      obtain ⟨-, rfl⟩ := hnames.unique hnames'
      obtain ⟨t, -, ht⟩ := exists_of_forall₂ htypes hmem
      exact hnone t ht

/-! ## Decoding -/

theorem denotes_of_typesOf {parts : List String} {types : List TypeId}
    (h : typesOf l parts = .ok types) : List.Forall₂ (Denotes l) parts types := by
  refine (forall₂_of_mapM h).imp fun part t ht => ?_
  split at ht
  · rename_i htop
    cases ht
    rw [htop]
    exact .top
  · rename_i hne
    split at ht
    · rename_i hid
      cases ht
      exact .named hne hid
    · cases ht

theorem unknown_of_typesOf {parts : List String} {e : RestrictorError}
    (h : typesOf l parts = .error e) :
    ∃ part ∈ parts, e = .unknownType part ∧ ∀ t, ¬ Denotes l part t := by
  obtain ⟨part, hmem, hpart⟩ := mapM_error h
  split at hpart
  · cases hpart
  · rename_i hne
    split at hpart
    · cases hpart
    · rename_i hid
      cases hpart
      refine ⟨part, hmem, rfl, fun t ht => ?_⟩
      cases ht with
      | top => exact hne rfl
      | named _ hid' =>
        rw [hid] at hid'
        cases hid'

/-- What is decoded from a name is a mode and the types of the other parts that it lists. -/
theorem exists_names (node : NodeId) (hne : type ≠ .top) {name : String}
    (hname : l.typeName? type = some name) : ∃ mode listed, Names l type mode listed ∧
      decode l node type = (fun types => ⟨mode, types, []⟩) <$> typesOf l listed := by
  have htop : type.isTop = false := Bool.eq_false_iff.2 (mt TypeId.isTop_eq_true_iff.1 hne)
  have hlists : ∀ {parts}, nameParts name = parts → Lists name parts :=
    fun h => lists_iff.2 h.symm
  cases hparts : nameParts name with
  | nil =>
    refine ⟨.keep, [], ⟨name, [], hname, hlists hparts, .plain nofun⟩, ?_⟩
    simp [decode, htop, hname, hparts]
  | cons first rest =>
    cases hmode : RestrictMode.ofName? first with
    | some mode =>
      refine ⟨mode, rest, ⟨name, _, hname, hlists hparts, .moded hmode⟩, ?_⟩
      simp [decode, htop, hname, hparts, hmode]
    | none =>
      refine ⟨.keep, first :: rest, ⟨name, _, hname, hlists hparts, .plain fun _ h => ?_⟩, ?_⟩
      · cases h
        exact hmode
      · simp [decode, htop, hname, hparts, hmode]

theorem encodes_of_decode {rule : RestrictRule} (h : decode l node type = .ok rule) :
    Encodes l type rule.mode rule.generalize := by
  by_cases htop : type = .top
  · subst htop
    cases h
    exact .top
  · cases hname : l.typeName? type with
    | none => simp [decode, htop, hname] at h
    | some name =>
      obtain ⟨mode, listed, hnames, heq⟩ := exists_names node htop hname
      rw [heq] at h
      cases htypes : typesOf l listed with
      | error e =>
        rw [htypes] at h
        cases h
      | ok types =>
        rw [htypes] at h
        cases h
        exact .named htop hnames (denotes_of_typesOf htypes)

theorem fault_of_decode {e : RestrictorError} (h : decode l node type = .error e) :
    Fault l node type e := by
  by_cases htop : type = .top
  · subst htop
    cases h
  · cases hname : l.typeName? type with
    | none =>
      have htop' : type.isTop = false := Bool.eq_false_iff.2 (mt TypeId.isTop_eq_true_iff.1 htop)
      simp only [decode, htop', hname] at h
      cases h
      exact .unnamed htop hname
    | some name =>
      obtain ⟨mode, listed, hnames, heq⟩ := exists_names node htop hname
      rw [heq] at h
      cases htypes : typesOf l listed with
      | error e' =>
        rw [htypes] at h
        cases h
        obtain ⟨part, hmem, rfl, hnone⟩ := unknown_of_typesOf htypes
        exact .unknown htop hnames hmem hnone
      | ok types =>
        rw [htypes] at h
        cases h

end RestrictRule

/-! ## Structures of rules -/

namespace RestrictRules

open RestrictRule

/-- The rules are those that the structure below `root` encodes: there is one rule for each node,
with its place as its number. -/
structure Mirrors (g : Graph) (l : Lattice) (root : NodeId) (t : RestrictRules)
    (place : NodeId → Nat) : Prop where
  bijOn : Set.BijOn place {n | g.Below root n} (Set.Iio t.size)
  root_eq : place root = t.root
  encodes : ∀ n, g.Below root n →
    Encodes l (g.type n) (t.rule (place n)).mode (t.rule (place n)).generalize
  child?_eq : ∀ n, g.Below root n → ∀ f,
    (t.rule (place n)).child? f = (g.value? n f).map place

variable {g : Graph} {l : Lattice} {root : NodeId}

/-- The place of a node on the trail. -/
def placeOf (g : Graph) (root n : NodeId) : Nat := ((g.trail root).place? n).getD 0

/-- The rule for a node. -/
def ruleFor (g : Graph) (l : Lattice) (root n : NodeId) : Except RestrictorError RestrictRule :=
  (fun rule : RestrictRule =>
    { rule with children := Edges.mapTargets (placeOf g root) (g.edges n) }) <$>
      decode l n (g.type n)

theorem ofGraph_eq : ofGraph g l root =
    (fun rules => ⟨rules.toArray, 0⟩) <$> (g.trail root).toList.mapM (ruleFor g l root) := by
  rfl

theorem ruleFor_ok {n : NodeId} {rule : RestrictRule} (h : ruleFor g l root n = .ok rule) :
    Encodes l (g.type n) rule.mode rule.generalize ∧
      ∀ f, rule.child? f = (g.value? n f).map (placeOf g root) := by
  unfold ruleFor at h
  cases hdecode : decode l n (g.type n) with
  | error e =>
    rw [hdecode] at h
    cases h
  | ok decoded =>
    rw [hdecode] at h
    cases h
    have hencodes := encodes_of_decode hdecode
    exact ⟨hencodes, fun f => Edges.target?_mapTargets ..⟩

theorem ruleFor_error {n : NodeId} {e : RestrictorError} (h : ruleFor g l root n = .error e) :
    Fault l n (g.type n) e := by
  unfold ruleFor at h
  cases hdecode : decode l n (g.type n) with
  | error e' =>
    rw [hdecode] at h
    cases h
    exact fault_of_decode hdecode
  | ok decoded =>
    rw [hdecode] at h
    cases h

theorem mirrors_of_rules {rules : List RestrictRule}
    (hmem : ∀ n, n ∈ (g.trail root).order.toList ↔ g.Below root n)
    (hplaced : Trail.Placed root (g.trail root) [])
    (hrules : List.Forall₂ (fun n rule => ruleFor g l root n = .ok rule)
      (g.trail root).order.toList rules) :
    Mirrors g l root ⟨rules.toArray, 0⟩ (placeOf g root) := by
  have hlength : (g.trail root).order.size = rules.length := hrules.length_eq
  -- a node has one place on the trail, and its rule stands at that place
  have hplace : ∀ n, g.Below root n → (g.trail root).order[placeOf g root n]? = some n := by
    intro n hn
    obtain ⟨i, hi⟩ := Array.mem_iff_getElem?.1 (Array.mem_toList_iff.1 ((hmem n).2 hn))
    rw [placeOf, hplaced.place_eq_some_iff.2 hi]
    exact hi
  have hrule : ∀ n, g.Below root n →
      ruleFor g l root n = .ok (RestrictRules.rule ⟨rules.toArray, 0⟩ (placeOf g root n)) := by
    intro n hn
    obtain ⟨hi, hn⟩ := Array.getElem?_eq_some_iff.1 (hplace n hn)
    have hi' : placeOf g root n < rules.length := hlength ▸ hi
    have hget := hrules.get hi hi'
    have heq : RestrictRules.rule ⟨rules.toArray, 0⟩ (placeOf g root n) =
        rules[placeOf g root n] := by
      simp [RestrictRules.rule, Array.getD, hi']
    rw [heq]
    simpa [hn] using hget
  refine ⟨⟨fun n hn => ?_, fun n hn m hm heq => ?_, fun i hi => ?_⟩, ?_, fun n hn =>
    (ruleFor_ok (hrule n hn)).1, fun n hn => (ruleFor_ok (hrule n hn)).2⟩
  · obtain ⟨hi, -⟩ := Array.getElem?_eq_some_iff.1 (hplace n hn)
    exact Nat.lt_of_lt_of_eq hi (hlength.trans List.size_toArray.symm)
  · have hfirst := hplace n hn
    rw [heq, hplace m hm, Option.some.injEq] at hfirst
    exact hfirst.symm
  · have hi' : i < (g.trail root).order.size :=
      Nat.lt_of_lt_of_eq hi (List.size_toArray.trans hlength.symm)
    have hget : (g.trail root).order[i]? = some (g.trail root).order[i] :=
      Array.getElem?_eq_getElem hi'
    have hbelow := (hmem _).1 (Array.mem_toList_iff.2 (Array.mem_of_getElem? hget))
    refine ⟨_, hbelow, ?_⟩
    rw [placeOf, hplaced.place_eq_some_iff.2 hget]
    rfl
  · rw [placeOf]
    rcases hplaced.root_first with hroot | ⟨-, hnil⟩
    · rw [hplaced.place_eq_some_iff.2 hroot]
      rfl
    · cases hnil

/-- The walk through a structure comes to its end. The structure encodes no restrictor just when
some node of it is at fault, and then such a node is reported. Otherwise its restrictor has one rule
for each of its nodes: the root of the rules is that for the root, the rules for the features are
those for their values, and each rule is what the type of its node encodes. -/
theorem mirrors_ofGraph (l : Lattice) (hwhole : g.Whole root) :
    (∃ t, Agenda.run (Trail.meet g.targets) g.weight (.start g.size) [root] = .done t ∧
      g.trail root = t) ∧
    ((∃ e, ofGraph g l root = .error e) ↔ ∃ n e, g.Below root n ∧ Fault l n (g.type n) e) ∧
    (∀ e, ofGraph g l root = .error e → ∃ n, g.Below root n ∧ Fault l n (g.type n) e) ∧
    ∀ t, ofGraph g l root = .ok t → ∃ place, Mirrors g l root t place := by
  obtain ⟨trail, hrun, -, hmem, hplaced⟩ := hwhole.exists_trail
  have htrail : g.trail root = trail := congrArg Ending.state hrun
  rw [← htrail] at hmem hplaced
  have herror : ∀ e, ofGraph g l root = .error e →
      ∃ n, g.Below root n ∧ Fault l n (g.type n) e := by
    intro e he
    rw [ofGraph_eq] at he
    cases hrules : (g.trail root).toList.mapM (ruleFor g l root) with
    | error e' =>
      rw [hrules] at he
      cases he
      obtain ⟨n, hn, hfault⟩ := mapM_error hrules
      exact ⟨n, (hmem n).1 hn, ruleFor_error hfault⟩
    | ok rules =>
      rw [hrules] at he
      cases he
  have hok : ∀ t, ofGraph g l root = .ok t → Mirrors g l root t (placeOf g root) := by
    intro t ht
    rw [ofGraph_eq] at ht
    cases hrules : (g.trail root).toList.mapM (ruleFor g l root) with
    | error e =>
      rw [hrules] at ht
      cases ht
    | ok rules =>
      rw [hrules] at ht
      cases ht
      exact mirrors_of_rules hmem hplaced (forall₂_of_mapM hrules)
  refine ⟨⟨trail, hrun, htrail⟩, ⟨fun ⟨e, he⟩ => ?_, fun ⟨n, e, hn, hfault⟩ => ?_⟩, herror,
    fun t ht => ⟨_, hok t ht⟩⟩
  · obtain ⟨n, hn, hfault⟩ := herror e he
    exact ⟨n, e, hn, hfault⟩
  · cases hres : ofGraph g l root with
    | error e => exact ⟨e, rfl⟩
    | ok t => exact absurd hfault (((hok t hres).encodes n hn).not_fault e)

/-- A lattice with two atoms whose names list types. -/
def listing : Lattice :=
  { Sample.lattice with atoms := .ofList ["\"rstr_no, c,,*top*\"", "\"del,z\""] }

/-- A structure in a circle with a shared node, and one that leads to a node at fault. -/
def encoded : Graph :=
  .ofNodes [(.of 5, [⟨0, 1⟩, ⟨1, 1⟩]), (.of 1, [⟨1, 0⟩]), (.top, [⟨0, 0⟩, ⟨1, 3⟩]), (.of 6, [])]

deriving instance DecidableEq for RestrictRules

theorem mirrors_ofGraph_encoded :
    encoded.Whole 0 ∧ encoded.Whole 2 ∧
    (∃ t place, ofGraph encoded listing 0 = .ok t ∧
      t = ⟨#[⟨.leave, [.of 3, .top], [⟨0, 1⟩, ⟨1, 1⟩]⟩, ⟨.keep, [.of 1], [⟨1, 0⟩]⟩], 0⟩ ∧
      Mirrors encoded listing 0 t place) ∧
    ofGraph encoded listing 2 = .error (.unknownType "z") ∧
    ∃ n, encoded.Below 2 n ∧ Fault listing n (encoded.type n) (.unknownType "z") := by
  have hsound : encoded.Sound := (Graph.sound_ofNodes (by decide)).1
  have hfirst : encoded.Whole 0 := hsound.edgesLead.whole (by decide)
  have hsecond : encoded.Whole 2 := hsound.edgesLead.whole (by decide)
  have hrules : ofGraph encoded listing 0 = .ok
      ⟨#[⟨.leave, [.of 3, .top], [⟨0, 1⟩, ⟨1, 1⟩]⟩, ⟨.keep, [.of 1], [⟨1, 0⟩]⟩], 0⟩ := by
    decide +kernel
  have herror : ofGraph encoded listing 2 = .error (.unknownType "z") := by decide +kernel
  obtain ⟨place, hmirrors⟩ := (mirrors_ofGraph listing hfirst).2.2.2 _ hrules
  exact ⟨hfirst, hsecond, ⟨_, place, hrules, rfl, hmirrors⟩, herror,
    (mirrors_ofGraph listing hsecond).2.2.1 _ herror⟩

end RestrictRules

end FeatureLogic
