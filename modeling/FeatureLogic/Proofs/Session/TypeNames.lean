import FeatureLogic.Proofs.Lattice.Representation
import FeatureLogic.Proofs.Notation.Printing
import FeatureLogic.Proofs.Notation.Spelling
import FeatureLogic.Proofs.Unify.Web

/-!
Names of types in texts. An atom is printed between quotation marks and read back whatever its name
is. The name of any other type is printed as it is; so it is read back only if it is a word, or the
number of its own type (`Session.parse_print_bare_iff`).
-/

open Relation

namespace FeatureLogic

namespace Notation

/-- A node without edges is printed as its type in brackets. -/
theorem print_bare {g : Graph} (hg : g.Linked) {root : Nat} (hroot : root < g.size)
    (hnone : g.currentEdges (g.deref root) = []) (names : NameTable) (l : Lattice) :
    print names l g root = "[" ++ typeText l (g.currentType (g.deref root)) ++ "]" := by
  have htargets : ∀ {n}, g.view.Reach (g.deref root) n → g.currentTargets n = [] := by
    intro n hn
    have hself : n = g.deref root := by
      induction hn with
      | refl => rfl
      | tail _ hstep ih =>
        rw [ih] at hstep
        have := Graph.mem_currentTargets.2 hstep
        rw [Graph.currentTargets, hnone] at this
        cases this
    rw [Graph.currentTargets, hself, hnone]
    rfl
  obtain ⟨scene, hscene⟩ : ∃ scene : Scene, scene = ⟨g, l, names, arrivals g root⟩ := ⟨_, rfl⟩
  have hshared : scene.isShared (g.deref root) = false := by
    have hlt := hg.reach_lt hroot (n := g.deref root) ReflTransGen.refl
    have hzero : Agenda.leftOver g.size (fun n => (g.currentTargets n).count (g.deref root))
        (fun n => ¬ g.view.Reach (g.deref root) n) = 0 := by
      rw [Agenda.leftOver_not]
      refine Finset.sum_eq_zero fun n _ => ?_
      split
      · rename_i hn
        rw [htargets hn, List.count_nil]
      · rfl
    have hone := getD_arrivals hg hroot hlt
    rw [if_pos rfl, hzero] at hone
    simp [Scene.isShared, hscene, hone]
  have hfuel : 2 ≤ 2 * g.weight := by
    rw [g.weight_eq]
    omega
  have hbody : scene.body (g.deref root) = [.text "]"] := by
    rw [Scene.body, hscene, hnone]
    rfl
  have hopening : scene.turn ⟨"", .replicate g.size none, 0⟩ (.node (g.deref root)) =
      .next ⟨"" ++ scene.opening (g.deref root), .replicate g.size none, 0⟩ [.text "]"] := by
    rw [Scene.turn, hshared, hbody]
    rfl
  have hleads := Agenda.leads_of_next hopening (Agenda.leads_of_next
    (show scene.turn _ (.text "]") = _ from rfl) (Agenda.leads_nil _))
  simp only [print, ← hscene, hleads.run_eq_done hfuel, Ending.state]
  rw [String.empty_append, Scene.opening, hscene]

/-- A type that was declared is meant by its number or by its name only. -/
theorem resolve_cases {l : Lattice} {i : Nat} {name : String} (hpos : 0 < i)
    (hatom : l.isAtom (.of i) = false) (hname : l.typeName? (.of i) = some name) {mark : TypeMark}
    (h : (mark.resolve l).1 = .of i) :
    mark = .number i ∨ mark = .word name ∨ mark = .quoted name := by
  have hgrammar : i < l.typeCount := by simpa [Lattice.isAtom] using hatom
  have hfound : ∀ {other}, l.hierarchy.names.index? other = some i → other = name := by
    intro other hother
    rw [Lattice.typeName?, if_pos hgrammar, NameTable.index?_eq_some_iff.1 hother] at hname
    exact Option.some.inj hname
  -- what is found nowhere is the universal type, and what is no declared type is an atom
  have htop : TypeId.top ≠ .of i := fun heq => Nat.ne_of_lt hpos (TypeId.of.inj heq)
  have hnone : ∀ {a : Nat}, TypeId.of (l.typeCount + a) ≠ .of i := fun heq => by
    have := TypeId.of.inj heq
    omega
  cases mark with
  | number n =>
    simp only [TypeMark.resolve] at h
    split at h
    · exact .inl (congrArg _ (TypeId.of.inj h))
    · exact absurd h htop
  | word w =>
    simp only [TypeMark.resolve, Lattice.typeId?] at h
    split at h
    · rename_i j hj
      rw [Option.getD_some] at h
      exact .inr (.inl (congrArg _ (hfound (TypeId.of.inj h ▸ hj))))
    · cases ha : l.atoms.index? w with
      | none => exact absurd (by simpa [ha] using h) htop
      | some a => exact absurd (by simpa [ha] using h) hnone
  | quoted text =>
    simp only [TypeMark.resolve, Lattice.intern] at h
    split at h
    · rename_i j hj
      exact .inr (.inr (congrArg _ (hfound (TypeId.of.inj h ▸ hj))))
    · exact absurd h hnone

/-- What a name is read as, before a closing bracket, is not the type of that name unless the name
denotes it. -/
theorem denotes_of_resolve {l : Lattice} (htop : l.typeName? .top = some topName) {i : Nat}
    {name : String} (hatom : l.isAtom (.of i) = false) (hname : l.typeName? (.of i) = some name)
    {mark : TypeMark} {before cs after : List Char} (hbefore : ∀ c ∈ before, Text.isBlank c = true)
    (hafter : ∀ c ∈ after, Text.isBlank c = true) (hspelt : Spelt mark.token cs)
    (hcs : name.toList = before ++ (cs ++ after)) (hresolve : (mark.resolve l).1 = .of i) :
    Denotes name i := by
  rcases Nat.eq_zero_or_pos i with rfl | hpos
  · -- what is no type is read as the universal type, which has a name that is a word
    obtain rfl : topName = name := Option.some.inj (htop.symm.trans hname)
    exact denotes_iff.2 (.inl (by decide))
  have hmark := resolve_cases hpos hatom hname hresolve
  rcases hspelt.mark_cases with ⟨hnil, hword, htoken⟩ | ⟨text, rfl, hlength⟩
  · rcases hmark with rfl | rfl | rfl
    · refine .number ?_
      have hblank : ∀ c ∈ cs, Text.isBlank c = false :=
        fun c hc => not_isBlank_of_isWordChar (hword c hc)
      rw [hcs, Text.trim_of_isBlank hbefore hafter hnil hblank, htoken]
      rfl
    · obtain rfl : cs = name.toList := by
        rcases ofWord_cases cs with ⟨n, hcs⟩ | hcs
        · cases htoken.symm.trans hcs
        · have : name = String.ofList cs := Token.word.inj (htoken.symm.trans hcs)
          rw [this, String.toList_ofList]
      exact .word hnil hword htoken
    · rcases ofWord_cases cs with ⟨n, hcs⟩ | hcs <;> cases htoken.symm.trans hcs
  · -- a quoted text is shorter than the name
    exfalso
    obtain rfl : text = name := by simpa using hmark
    have hle : cs.length ≤ text.length := by
      rw [← String.length_toList, hcs, List.length_append, List.length_append]
      omega
    omega

theorem Denotes.exists_mark {l : Lattice} {i : Nat} {name : String}
    (hatom : l.isAtom (.of i) = false) (hname : l.typeName? (.of i) = some name)
    (h : Denotes name i) : ∃ (mark : TypeMark) (after : List Char),
      (∀ c ∈ after, Text.isBlank c = true) ∧
        Scans (name.toList ++ [']']) mark.token (after ++ [']']) ∧ (mark.resolve l).1 = .of i := by
  have hgrammar : i < l.typeCount := by simpa [Lattice.isAtom] using hatom
  obtain ⟨mark, after, hmark, hafter, hscans⟩ := h.exists_scans
  refine ⟨mark, after, hafter, hscans, ?_⟩
  rcases hmark with rfl | rfl
  · rw [Lattice.typeName?, if_pos hgrammar] at hname
    rw [TypeMark.resolve, Lattice.typeId_of_hierarchy hname, Option.getD_some]
  · simp [TypeMark.resolve, Lattice.isGrammarType, hgrammar]

/-- What is printed of a node without features is read as a node of that type just when the type is
an atom or its name denotes it. -/
theorem parse_typeText_iff {l : Lattice} (hapart : l.AtomsApart)
    (htop : l.typeName? .top = some topName) (names : NameTable) (g : Graph) {t : TypeId}
    {name : String} (hname : l.typeName? t = some name) {text : String}
    (htext : text = "[" ++ typeText l t ++ "]") :
    (∃ node, (parse names l g text).outcome = .ok node ∧
      (parse names l g text).graph.shape.Bare node t) ↔
        l.isAtom t = true ∨ ∃ i, t = .of i ∧ Denotes name i := by
  have hlist : text.toList = '[' :: ((typeText l t).toList ++ [']']) := by
    rw [htext, String.toList_append, String.toList_append]
    rfl
  obtain ⟨s, hahead, hrest, hiff⟩ := Scanner.exists_yields_bracket_iff hlist
  simp only [parse_bare_iff, hiff]
  rcases Lattice.typeName_cases hname with ⟨i, rfl, hatom, -⟩ | ⟨a, rfl, hatom, ha⟩
  · have hplain : typeText l (.of i) = name := by
      rw [typeText, hname]
      simp [hatom]
    rw [hplain] at hrest
    constructor
    · rintro ⟨_, mark, s', s'', ⟨-, hyields⟩, hend, hresolve⟩
      obtain ⟨before, cs, after, hbefore, hafter, hspelt, hcs⟩ :=
        Scanner.exists_of_bracketed hahead hrest hyields hend
      exact .inr ⟨i, rfl, denotes_of_resolve htop hatom hname hbefore hafter hspelt hcs hresolve⟩
    · rintro (hyes | ⟨j, hj, hdenotes⟩)
      · rw [hatom] at hyes
        cases hyes
      · cases hj
        obtain ⟨mark, after, hafter, hscans, hresolve⟩ := hdenotes.exists_mark hatom hname
        obtain ⟨s', s'', hyields, hend⟩ :=
          Scanner.exists_yields_bracketed hahead hrest hscans hafter
        exact ⟨none, mark, s', s'', ⟨rfl, hyields⟩, hend, hresolve⟩
  · refine iff_of_true ?_ (.inl hatom)
    have hquoted : typeText l (.of (l.typeCount + a)) = quotedName name := by
      rw [typeText, hname]
      simp [hatom]
    rw [hquoted] at hrest
    have hscans : Scans ((quotedName name).toList ++ [']']) (.quoted name) ([] ++ [']']) :=
      scans_quotedName name _
    obtain ⟨s', s'', hyields, hend⟩ :=
      Scanner.exists_yields_bracketed hahead hrest hscans (List.forall_mem_nil _)
    refine ⟨none, .quoted name, s', s'', ⟨rfl, hyields⟩, hend, ?_⟩
    rw [TypeMark.resolve, hapart.intern_eq ha]

end Notation

namespace Lattice

variable {types : List (String × List String)} {d : Declarations} {l₀ l : Lattice}

/-- The universal type of declared types keeps its name, whatever is asked. -/
theorem typeName_top_of_grown (hd : Declarations.initial.declareAll types = .ok d)
    (hl : ofDeclarations d = .ok l₀) (hgrown : Grown l₀ l) : l.typeName? .top = some topName := by
  obtain ⟨draft, order, c, final, hs, heq⟩ := exists_stages hd hl hgrown
  have hname : l.hierarchy.names.name? 0 = some topName := by
    rw [heq]
    exact hs.name_zero hd
  have hpos : 0 < l.typeCount := (Array.getElem?_eq_some_iff.1 hname).1
  rw [typeName?, if_pos hpos, hname]

end Lattice

namespace Session

/-- A node without features is printed as one that is read as a node of its type just when the type
is an atom, or its name is a word and no number, or its name is its number, with blanks around it
maybe. -/
theorem parse_print_bare_iff {types : List (String × List String)} {d : Declarations}
    {l₀ : Lattice} {s : Session} (hd : Declarations.initial.declareAll types = .ok d)
    (hl : Lattice.ofDeclarations d = .ok l₀) (hgrown : Lattice.Grown l₀ s.grammar.lattice)
    (hs : s.graph.Entangled) {root : Nat} (hroot : root < s.graph.size) {t : TypeId} {name : String}
    (hname : s.grammar.lattice.typeName? t = some name)
    (hbare : s.current.Bare (s.graph.deref root) t) :
    (∃ node s', s.parse (s.print root) = (.ok node, s') ∧ s'.shape.Bare node t) ↔
      s.grammar.lattice.isAtom t = true ∨ ∃ i, t = .of i ∧ Notation.Denotes name i := by
  have hapart := (Lattice.atomsApart_ofDeclarations hl).of_grown hgrown
  have htop := Lattice.typeName_top_of_grown hd hl hgrown
  have hnone : s.graph.currentEdges (s.graph.deref root) = [] := by
    refine List.eq_nil_iff_forall_not_mem.2 fun e he => ?_
    have hvalue : (s.graph.currentEdge? (s.graph.deref root) e.feature).map s.graph.deref = none :=
      hbare.2 e.feature
    rw [hs.mem_currentEdges.1 he] at hvalue
    cases hvalue
  have htext : s.print root = "[" ++ Notation.typeText s.grammar.lattice t ++ "]" := by
    rw [print, Notation.print_bare hs.linked hroot hnone]
    rw [show s.graph.currentType (s.graph.deref root) = t from hbare.1]
  rw [← Notation.parse_typeText_iff hapart htop s.grammar.features s.graph hname htext]
  constructor
  · rintro ⟨node, s', hparse, hread⟩
    obtain ⟨houtcome, rfl⟩ := Prod.mk.inj hparse
    exact ⟨node, houtcome, hread⟩
  · rintro ⟨node, houtcome, hread⟩
    exact ⟨node, _, Prod.ext houtcome rfl, hread⟩

/-! ### A name of two words -/

/-- A node of the one type that is declared. -/
def spaced (l : Lattice) : Session :=
  ⟨{ (default : Grammar) with lattice := l }, .ofNodes [(.of 1, [])], none⟩

theorem sound_spaced (l : Lattice) : (spaced l).graph.Sound ∧ (spaced l).graph.AtRest :=
  Graph.sound_ofNodes (by decide)

theorem bare_spaced (l : Lattice) :
    (spaced l).current.Bare ((spaced l).graph.deref 0) (.of 1) := by
  have hrest := (sound_spaced l).2
  have hview : (spaced l).current = (spaced l).shape := hrest.view_eq
  rw [hrest.deref_eq, hview]
  exact ⟨rfl, fun f => rfl⟩

/-- The name is printed as two words, of which the second is taken for a feature. -/
theorem built_spaced : ∃ (d : Declarations) (l : Lattice),
    Declarations.initial.declareAll [("a b", [])] = .ok d ∧ Lattice.ofDeclarations d = .ok l ∧
      l.typeName? (.of 1) = some "a b" ∧
        ((spaced l).parse ((spaced l).print 0)).1.toOption = none := by
  obtain ⟨d, l, hd, hl, heq⟩ := Lattice.exists_built [("a b", [])]
    (fun l => (l.typeName? (.of 1), ((spaced l).parse ((spaced l).print 0)).1.toOption))
    (a := (some "a b", none)) (by decide +kernel)
  exact ⟨d, l, hd, hl, congrArg Prod.fst heq, congrArg Prod.snd heq⟩

theorem parse_print_bare_iff_spaced : ∃ (d : Declarations) (l : Lattice),
    Declarations.initial.declareAll [("a b", [])] = .ok d ∧ Lattice.ofDeclarations d = .ok l ∧
    Lattice.Grown l (spaced l).grammar.lattice ∧ (spaced l).graph.Entangled ∧
    0 < (spaced l).graph.size ∧ l.typeName? (.of 1) = some "a b" ∧
    (spaced l).current.Bare ((spaced l).graph.deref 0) (.of 1) ∧
    ((∃ node s', (spaced l).parse ((spaced l).print 0) = (.ok node, s') ∧
        s'.shape.Bare node (.of 1)) ↔
      (spaced l).grammar.lattice.isAtom (.of 1) = true ∨
        ∃ i, TypeId.of 1 = .of i ∧ Notation.Denotes "a b" i) := by
  obtain ⟨d, l, hd, hl, hname, -⟩ := built_spaced
  have hs := Graph.entangled_of_atRest (sound_spaced l).1 (sound_spaced l).2
  have hroot : 0 < (spaced l).graph.size := Nat.one_pos
  exact ⟨d, l, hd, hl, .refl l, hs, hroot, hname, bare_spaced l,
    parse_print_bare_iff hd hl (.refl l) hs hroot hname (bare_spaced l)⟩

/-- Not every name is read as the type that has it. -/
theorem not_forall_parse_print_bare : ¬ ∀ (types : List (String × List String)) (d : Declarations)
    (l₀ : Lattice) (s : Session), Declarations.initial.declareAll types = .ok d →
    Lattice.ofDeclarations d = .ok l₀ → Lattice.Grown l₀ s.grammar.lattice → s.graph.Entangled →
    ∀ (root : Nat) (t : TypeId) (name : String), root < s.graph.size →
      s.grammar.lattice.typeName? t = some name → s.current.Bare (s.graph.deref root) t →
      ∃ node s', s.parse (s.print root) = (.ok node, s') ∧ s'.shape.Bare node t := by
  intro hall
  obtain ⟨d, l, hd, hl, hname, hparse⟩ := built_spaced
  have hs := Graph.entangled_of_atRest (sound_spaced l).1 (sound_spaced l).2
  obtain ⟨node, s', hok, -⟩ := hall _ d l (spaced l) hd hl (.refl l) hs 0 (.of 1) "a b" Nat.one_pos
    hname (bare_spaced l)
  rw [hok] at hparse
  cases hparse

end Session

end FeatureLogic
