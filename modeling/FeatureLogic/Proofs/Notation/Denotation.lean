import FeatureLogic.Proofs.Notation.Parsing
import FeatureLogic.Proofs.Notation.Reading
import FeatureLogic.Proofs.Notation.Recognition
import FeatureLogic.Proofs.Sample

/-!
Reading phrases. A phrase is read up to its last token, as the structure that it denotes, and
nothing but a phrase is read (`Notation.read_phrase`).
-/

namespace FeatureLogic.Notation

variable {names : NameTable}

/-! ## Brackets as nodes -/

/-- From node `n` on the graph has the nodes that brackets denote, of which the first is node
`base`. -/
def Drawn (base : NodeId) (g : Graph) : Lattice → Nat → List Bracket → Prop
  | _, _, [] => True
  | l, n, b :: rest =>
    (g.type n = (b.type.resolve l).1 ∧
      ∀ f, g.value? n f = (Edges.target? f b.edges.reverse).map (base + ·)) ∧
    Drawn base g (b.type.resolve l).2 (n + 1) rest

section Drawn

variable {base n : Nat} {g g' : Graph} {l : Lattice} {brackets more : List Bracket}

theorem drawn_append : Drawn base g l n (brackets ++ more) ↔
    Drawn base g l n brackets ∧ Drawn base g (taught l brackets) (n + brackets.length) more := by
  induction brackets generalizing l n with
  | nil => simp [Drawn, taught]
  | cons b brackets ih =>
    simp only [List.cons_append, Drawn, ih, and_assoc, List.length_cons, taught, List.foldl_cons,
      Nat.add_assoc, Nat.add_comm 1]

theorem Drawn.congr (h : Drawn base g l n brackets)
    (hsame : ∀ m : Nat, n ≤ m → m < n + brackets.length →
      g'.type m = g.type m ∧ ∀ f, g'.value? m f = g.value? m f) : Drawn base g' l n brackets := by
  induction brackets generalizing l n with
  | nil => trivial
  | cons b brackets ih =>
    obtain ⟨⟨htype, hvalue⟩, hrest⟩ := h
    rw [List.length_cons] at hsame
    obtain ⟨htype', hvalue'⟩ := hsame n (Nat.le_refl _) (by omega)
    refine ⟨⟨htype'.trans htype, fun f => (hvalue' f).trans (hvalue f)⟩,
      ih hrest fun m hle hlt => ?_⟩
    exact hsame m (by omega) (by omega)

/-- The nodes have the types and values of their brackets. -/
theorem Drawn.getElem (h : Drawn base g l n brackets) (i : Nat) (hi : i < brackets.length) :
    g.type (n + i) = (bracketTypes l brackets)[i]?.getD .top ∧ ∀ f, g.value? (n + i) f =
      (brackets[i]?.bind fun b => Edges.target? f b.edges.reverse).map (base + ·) := by
  induction brackets generalizing l n i with
  | nil => cases hi
  | cons b brackets ih =>
    cases i with
    | zero => exact h.1
    | succ i =>
      rw [← Nat.add_assoc, Nat.add_right_comm]
      exact ih h.2 i (Nat.lt_of_succ_lt_succ hi)

end Drawn

namespace Reading

/-- What the reader makes of brackets: it adds their nodes, learns their atoms and the numbers that
are mentioned, and gives nodes that were there already the values `gained`. -/
structure Takes (base : NodeId) (r r' : Reading) (brackets : List Bracket)
    (mentions : List (Nat × Bool)) (gained : NodeId → List Edge) : Prop where
  size_eq : r'.graph.size = r.graph.size + brackets.length
  drawn : Drawn base r'.graph r.lattice r.graph.size brackets
  lattice_eq : r'.lattice = taught r.lattice brackets
  known_eq : r'.Known = Mentioned r.Known mentions
  type_eq : ∀ {n : Nat}, n < r.graph.size → r'.graph.type n = r.graph.type n
  value_eq : ∀ {n : Nat}, n < r.graph.size → ∀ f, r'.graph.value? n f =
    ((Edges.target? f (gained n).reverse).map (base + ·)).or (r.graph.value? n f)

section Takes

variable {base : NodeId} {r r₁ r' : Reading} {brackets more : List Bracket}
  {mentions mentions' : List (Nat × Bool)} {gained gained' : NodeId → List Edge}

theorem Takes.append (h : Takes base r r₁ brackets mentions gained)
    (h' : Takes base r₁ r' more mentions' gained')
    (hold : ∀ n, r.graph.size ≤ n → gained' n = []) :
    Takes base r r' (brackets ++ more) (mentions ++ mentions') fun n => gained n ++ gained' n where
  size_eq := by rw [h'.size_eq, h.size_eq, List.length_append, Nat.add_assoc]
  drawn := by
    refine drawn_append.2 ⟨h.drawn.congr fun m hle hlt => ?_, ?_⟩
    · rw [← h.size_eq] at hlt
      refine ⟨h'.type_eq hlt, fun f => ?_⟩
      rw [h'.value_eq hlt, hold m hle]
      rfl
    · rw [← h.size_eq, ← h.lattice_eq]
      exact h'.drawn
  lattice_eq := by rw [h'.lattice_eq, h.lattice_eq, taught_append]
  known_eq := by rw [h'.known_eq, h.known_eq, mentioned_append]
  type_eq {n} hn := (h'.type_eq (by rw [h.size_eq]; omega)).trans (h.type_eq hn)
  value_eq {n} hn f := by
    rw [h'.value_eq (by rw [h.size_eq]; omega), h.value_eq hn, List.reverse_append,
      Edges.target?_append, Option.map_or, Option.or_assoc]

/-- Nothing is read but numbers that are known. -/
theorem takes_nil (base : NodeId) (hgraph : r'.graph = r.graph) (hlattice : r'.lattice = r.lattice)
    (hknown : r'.Known = Mentioned r.Known mentions) : Takes base r r' [] mentions fun _ => [] where
  size_eq := congrArg Graph.size hgraph
  drawn := trivial
  lattice_eq := hlattice
  known_eq := hknown
  type_eq _ := by rw [hgraph]
  value_eq _ _ := by rw [hgraph]; rfl

/-- The value of a feature is attached to its node. -/
theorem takes_attach {node : Nat} (hnode : node < r.graph.size) (feature : FeatureId)
    {target : NodeId} (hvalue : r.value = base + target) :
    Takes base r { r with graph := r.graph.putEdge node feature r.value } [] [] fun n =>
      if n = node then [⟨feature, target⟩] else [] where
  size_eq := Graph.size_putEdge ..
  drawn := trivial
  lattice_eq := rfl
  known_eq := rfl
  type_eq _ := Graph.type_putEdge ..
  value_eq {n} hn f := by
    show (r.graph.putEdge node feature r.value).value? n f = _
    rw [Graph.value?_putEdge]
    by_cases h : n = node
    · subst h
      by_cases hf : feature = f <;> simp [hn, hf, hvalue, Edges.target?_cons]
    · simp [h, Ne.symm h]

/-- A bracket that was opened is read with its features. -/
theorem Takes.bracket {type : TypeMark} {edges : List Edge} (hgraph : r₁.graph =
      r.graph.add (type.resolve r.lattice).1 [])
    (hlattice : r₁.lattice = (type.resolve r.lattice).2)
    (hknown : r₁.Known = Mentioned r.Known mentions)
    (h : Takes base r₁ r' brackets mentions' fun n => if n = r.graph.size then edges else []) :
    Takes base r r' (⟨type, edges⟩ :: brackets) (mentions ++ mentions') fun _ => [] := by
  have hsize : r₁.graph.size = r.graph.size + 1 := by rw [hgraph, Graph.size_add]
  have hvalue : ∀ n f, r₁.graph.value? n f =
      if n = r.graph.size then none else r.graph.value? n f := by
    intro n f
    rw [Graph.value?, hgraph, Graph.edges_add]
    split <;> rfl
  refine ⟨?_, ⟨⟨?_, fun f => ?_⟩, ?_⟩, ?_, ?_, fun {n} hn => ?_, fun {n} hn f => ?_⟩
  · rw [h.size_eq, hsize, List.length_cons, Nat.add_assoc, Nat.add_comm 1]
  · rw [h.type_eq (hsize ▸ Nat.lt_succ_self _), hgraph, Graph.type_add, if_pos rfl]
  · rw [h.value_eq (hsize ▸ Nat.lt_succ_self _), hvalue, if_pos rfl, if_pos rfl, Option.or_none]
  · rw [← hsize, ← hlattice]
    exact h.drawn
  · rw [h.lattice_eq, hlattice]
    rfl
  · rw [h.known_eq, hknown, mentioned_append]
  · rw [h.type_eq (hsize ▸ Nat.lt_succ_of_lt hn), hgraph, Graph.type_add, if_neg (Nat.ne_of_lt hn)]
  · rw [h.value_eq (hsize ▸ Nat.lt_succ_of_lt hn), hvalue, if_neg (Nat.ne_of_lt hn),
      if_neg (Nat.ne_of_lt hn)]

end Takes

/-! ## Phrases are read -/

/-- Every number that is known stands for the node that it has in a drawing from node `base` on. -/
def Agrees (base : NodeId) (place : Nat → NodeId) (r : Reading) : Prop :=
  ∀ {n node : Nat}, r.corefs[n]? = some node → node = base + place n

/-- Brackets can be read from here on, the first of which is bracket `first`. -/
structure Expects (base : NodeId) (place : Nat → NodeId) (r : Reading) (first : Nat)
    (mentions : List (Nat × Bool)) (places : List (Nat × NodeId)) : Prop where
  size_eq : r.graph.size = base + first
  numbered : Numbered r.Known mentions
  agrees : Agrees base place r
  place_eq : ∀ e ∈ places, place e.1 = e.2

/-- The task is done with at most two turns for a token, and brackets are read. -/
structure Reaches (base : NodeId) (place : Nat → NodeId) (names : NameTable) (r : Reading)
    (task : ReadTask) (tokens : List Token) (r' : Reading) (brackets : List Bracket)
    (mentions : List (Nat × Bool)) (gained : NodeId → List Edge) : Prop where
  leads : ∃ turns, Agenda.Leads (turn names) r [task] turns r' ∧ turns ≤ 2 * tokens.length
  takes : Takes base r r' brackets mentions gained
  agrees : Agrees base place r'

end Reading

open FeatureLogic.Notation.Reading

/-- Wherever the phrase may stand it is read as what it denotes. -/
def Phrase.IsRead (base : NodeId) (place : Nat → NodeId) (p : Phrase names) : Prop :=
  ∀ {r : Reading} {scanner : Scanner} {first : Nat}, r.scanner.Yields p.tokens scanner →
    Expects base place r first p.mentions (p.places first) → ∃ r', r'.scanner = scanner ∧
      r'.value = base + p.root place first ∧
      Reaches base place names r .whole p.tokens r' (p.brackets place first) p.mentions fun _ => []

def Pairs.IsRead (base : NodeId) (place : Nat → NodeId) (pairs : Pairs names) : Prop :=
  ∀ {r : Reading} {scanner : Scanner} {first node : Nat},
    r.scanner.Yields (pairs.tokens ++ [.closeBracket]) scanner → node < r.graph.size →
    Expects base place r first pairs.mentions (pairs.places first) → ∃ r', r'.scanner = scanner ∧
      r'.value = node ∧ Reaches base place names r (.features node)
        (pairs.tokens ++ [.closeBracket]) r' (pairs.brackets place first) pairs.mentions
        fun n => if n = node then pairs.edges place first else []

section IsRead

variable {base : Nat} {place : Nat → NodeId}

theorem isRead_again (n : Nat) : (Phrase.again n : Phrase names).IsRead base place := by
  intro r scanner first hs he
  have hknown : r.Known n := by simpa [Phrase.mentions, Numbered] using he.numbered
  obtain ⟨node, hnode⟩ := Option.isSome_iff_exists.1 (Std.HashMap.mem_iff_isSome_getElem?.1 hknown)
  refine ⟨_, rfl, he.agrees hnode, ⟨1, Agenda.leads_of_next ((Reads.known hnode).turn_eq hs)
    (Agenda.leads_nil _), by simp [Phrase.tokens]⟩, takes_nil base rfl rfl ?_, he.agrees⟩
  exact funext fun m => propext ⟨.inr, fun hm => hm.elim (· ▸ hknown) id⟩

theorem isRead_nil : (Pairs.nil : Pairs names).IsRead base place := by
  intro r scanner first node hs hnode he
  have hnone : (fun n : NodeId =>
      if n = node then (Pairs.nil : Pairs names).edges place first else []) = fun _ => [] :=
    funext fun n => ite_self _
  refine ⟨_, rfl, rfl, ⟨1, Agenda.leads_of_next (Reads.closed.turn_eq hs) (Agenda.leads_nil _),
    by simp [Pairs.tokens]⟩, ?_, he.agrees⟩
  rw [hnone]
  exact takes_nil base rfl rfl rfl

theorem isRead_cons {feature : FeatureMark names} {value : Phrase names} {rest : Pairs names}
    (hvalue : value.IsRead base place) (hrest : rest.IsRead base place) :
    (Pairs.cons feature value rest).IsRead base place := by
  intro r scanner first node hs hnode he
  obtain ⟨hsize, hnumbered, hagrees, hplace⟩ := he
  rw [Pairs.tokens, List.cons_append, ← List.singleton_append, Scanner.yields_append_iff] at hs
  obtain ⟨s₁, hs₁, hs⟩ := hs
  rw [List.append_assoc, Scanner.yields_append_iff] at hs
  obtain ⟨s₂, hs₂, hs₃⟩ := hs
  rw [Pairs.mentions, numbered_append] at hnumbered
  rw [Pairs.places] at hplace
  -- the value is read after the feature
  obtain ⟨r₂, rfl, hvalue₂, ⟨turns₂, hleads₂, hturns₂⟩, htakes₂, hagrees₂⟩ :=
    hvalue (r := { r with scanner := s₁ }) hs₂ ⟨hsize, hnumbered.1, hagrees,
      fun e he => hplace e (List.mem_append_left _ he)⟩
  have hsize₂ : r₂.graph.size = base + (first + value.size) := by
    rw [htakes₂.size_eq, value.length_brackets, hsize, Nat.add_assoc]
  have hnode₂ : node < r₂.graph.size := by
    rw [htakes₂.size_eq]
    exact Nat.lt_add_right _ hnode
  -- it is attached to the node
  have htakes₃ := takes_attach hnode₂ feature.feature hvalue₂
  have hsize₃ := htakes₃.size_eq
  -- and the other features are read
  obtain ⟨r', hscanner, hvalue', ⟨turns₄, hleads₄, hturns₄⟩, htakes₄, hagrees'⟩ :=
    hrest (r := { r₂ with graph := r₂.graph.putEdge node feature.feature r₂.value }) hs₃
      (hnode₂.trans_eq hsize₃.symm) ⟨hsize₃.trans hsize₂, htakes₂.known_eq ▸ hnumbered.2, hagrees₂,
        fun e he => hplace e (List.mem_append_right _ he)⟩
  refine ⟨r', hscanner, hvalue', ⟨_, Agenda.leads_of_next ((Reads.feature feature).turn_eq hs₁)
    (hleads₂.append ((Agenda.leads_of_next (Reads.attached.turn_eq (.nil _))
      (Agenda.leads_nil _)).append hleads₄)), ?_⟩, ?_, hagrees'⟩
  · simp only [Pairs.tokens, List.length_append, List.length_cons] at hturns₂ hturns₄ ⊢
    omega
  · have hold : ∀ {n : Nat} {edges : List Edge}, r.graph.size ≤ n →
        (if n = node then edges else []) = [] := fun hn => if_neg (Nat.ne_of_gt (hnode.trans_le hn))
    have htakes₁ : Takes base r { r with scanner := s₁ } [] [] fun _ => [] :=
      takes_nil base rfl rfl rfl
    have hall := ((htakes₁.append htakes₂ fun _ _ => rfl).append htakes₃ fun _ => hold).append
      htakes₄ fun _ => hold
    have hgained : (fun n => (([] ++ []) ++
        if n = node then [⟨feature.feature, value.root place first⟩] else []) ++
          if n = node then rest.edges place (first + value.size) else []) =
        fun n => if n = node then (Pairs.cons feature value rest).edges place first else [] := by
      funext n
      split <;> rfl
    simp only [List.append_nil, List.nil_append] at hall hgained
    rw [hgained] at hall
    exact hall

/-- A bracket is opened, with a number or without. -/
theorem exists_opened {number : Option Nat} {r : Reading} {scanner : Scanner} {first : Nat}
    {tokens : List Token} {mentions : List (Nat × Bool)} {places : List (Nat × NodeId)}
    (hs : r.scanner.Yields (number.toList.flatMap (fun n => [.hash, .number n]) ++
      .openBracket :: tokens) scanner)
    (he : Expects base place r first (number.toList.map (·, true) ++ mentions)
      (number.toList.map (·, first) ++ places)) :
    ∃ r₁, turn names r .whole = .next r₁ [.type r.graph.size] ∧
      r₁.scanner.Yields tokens scanner ∧ r₁.graph = r.graph.add .top [] ∧
      r₁.lattice = r.lattice ∧ r₁.Known = Mentioned r.Known (number.toList.map (·, true)) ∧
        Agrees base place r₁ := by
  cases number with
  | none =>
    obtain ⟨s₁, hopen, hrest⟩ := (Scanner.yields_append_iff [.openBracket]).1 hs
    exact ⟨_, Reads.opened.turn_eq hopen, hrest, rfl, rfl, rfl, he.agrees⟩
  | some n =>
    obtain ⟨s₁, hopen, hrest⟩ :=
      (Scanner.yields_append_iff [.hash, .number n, .openBracket]).1 hs
    -- the number is not known yet, so a structure follows
    have hnew : r.corefs[n]? = none := by
      have hn : ¬ r.Known n := he.numbered.1.1 rfl
      exact Std.HashMap.getElem?_eq_none hn
    refine ⟨_, (Reads.numbered hnew).turn_eq hopen, hrest, rfl, rfl, known_define .., ?_⟩
    intro m node hm
    simp only [define, newNode, Std.HashMap.getElem?_insert] at hm
    split at hm
    · rename_i heq
      obtain rfl : n = m := by simpa using heq
      rw [← Option.some.inj hm, he.size_eq, he.place_eq (n, first) (by simp)]
    · exact he.agrees hm

/-- The type of a new node is read. -/
theorem exists_typed {type : TypeMark} {r r₁ : Reading} {scanner : Scanner} {tokens : List Token}
    (hs : r₁.scanner.Yields (type.token :: tokens) scanner)
    (hgraph : r₁.graph = r.graph.add .top []) (hlattice : r₁.lattice = r.lattice) :
    ∃ r₂, turn names r₁ (.type r.graph.size) = .next r₂ [.features r.graph.size] ∧
      r₂.scanner.Yields tokens scanner ∧ r₂.graph = r.graph.add (type.resolve r.lattice).1 [] ∧
      r₂.lattice = (type.resolve r.lattice).2 ∧ r₂.corefs = r₁.corefs := by
  obtain ⟨s₂, htype, hrest⟩ := (Scanner.yields_append_iff [type.token]).1 hs
  refine ⟨_, (Reads.typed type).turn_eq htype, hrest, ?_, by rw [hlattice], rfl⟩
  rw [← hlattice, ← Graph.setType_add r.graph .top, ← hgraph]

theorem isRead_bracket {number : Option Nat} {type : TypeMark} {pairs : Pairs names}
    (hpairs : pairs.IsRead base place) : (Phrase.bracket number type pairs).IsRead base place := by
  intro r scanner first hs he
  rw [Phrase.tokens] at hs
  obtain ⟨r₁, hopen, hs₁, hgraph₁, hlattice₁, hknown₁, hagrees₁⟩ := exists_opened hs he
  obtain ⟨r₂, htype, hs₂, hgraph₂, hlattice₂, hcorefs₂⟩ :=
    exists_typed hs₁ hgraph₁ hlattice₁
  have hknown₂ : r₂.Known = Mentioned r.Known (number.toList.map (·, true)) := by
    rw [← hknown₁]
    exact funext fun n => congrArg (n ∈ ·) hcorefs₂
  have hagrees₂ : Agrees base place r₂ := fun hn => hagrees₁ (hcorefs₂ ▸ hn)
  have hsize₂ : r₂.graph.size = r.graph.size + 1 := by rw [hgraph₂, Graph.size_add]
  have hnode : r.graph.size < r₂.graph.size := hsize₂ ▸ Nat.lt_succ_self _
  have hexpects : Expects base place r₂ (first + 1) pairs.mentions (pairs.places (first + 1)) := by
    refine ⟨by rw [hsize₂, he.size_eq, Nat.add_assoc], ?_, hagrees₂, fun e he' => ?_⟩
    · rw [hknown₂]
      exact (numbered_append.1 he.numbered).2
    · exact he.place_eq e (List.mem_append_right _ he')
  obtain ⟨r', hscanner, hvalue, ⟨turns, hleads, hturns⟩, htakes, hagrees⟩ :=
    hpairs hs₂ hnode hexpects
  refine ⟨r', hscanner, hvalue.trans he.size_eq, ⟨_, Agenda.leads_of_next hopen
    (Agenda.leads_of_next htype hleads), ?_⟩, htakes.bracket hgraph₂ hlattice₂ hknown₂, hagrees⟩
  simp only [Phrase.tokens, List.length_append, List.length_cons] at hturns ⊢
  omega

end IsRead

mutual

theorem Phrase.isRead (base : Nat) (place : Nat → NodeId) :
    (p : Phrase names) → p.IsRead base place
  | .again n => isRead_again n
  | .bracket _ _ pairs => isRead_bracket (pairs.isRead base place)

theorem Pairs.isRead (base : Nat) (place : Nat → NodeId) :
    (pairs : Pairs names) → pairs.IsRead base place
  | .nil => isRead_nil
  | .cons _ value rest => isRead_cons (value.isRead base place) (rest.isRead base place)

end

/-! ## Whole phrases -/

/-- A graph in which a phrase is drawn has the structure that the phrase denotes. -/
theorem Drawn.isomorphic {p : Phrase names} {l : Lattice} {base : Nat} {g : Graph}
    (h : Drawn base g l base p.drawing) (hsize : g.size = base + p.drawing.length) :
    (p.shape l).Isomorphic 0 g.shape base := by
  refine ⟨(base + ·), rfl, fun n _ m _ => Nat.add_left_cancel, fun n _ => ?_⟩
  rcases Nat.lt_or_ge n p.drawing.length with hn | hn
  · exact h.getElem n hn
  · have hout : g.size ≤ base + n := by omega
    have htypes : (bracketTypes l p.drawing)[n]? = none :=
      List.getElem?_eq_none (by rwa [length_bracketTypes])
    have hvalues : p.drawing[n]? = none := List.getElem?_eq_none hn
    refine ⟨?_, fun f => ?_⟩
    · show g.type (base + n) = (bracketTypes l p.drawing)[n]?.getD .top
      rw [htypes, Graph.type_of_le hout]
      rfl
    · show g.value? (base + n) f = (p.drawing[n]?.bind _).map _
      rw [hvalues, Graph.value?, Graph.edges, Graph.node_of_le hout]
      rfl

section Read

variable {l : Lattice} {g : Graph} {s s' : Scanner}

/-- At the beginning no number is known. -/
theorem known_start (l : Lattice) (g : Graph) (s : Scanner) :
    (⟨g, l, s, {}, 0⟩ : Reading).Known = fun _ => False :=
  funext fun _ => propext (iff_false_intro Std.HashMap.not_mem_empty)

theorem exists_read {p : Phrase names} (hp : p.WellNumbered) (hs : s.Yields p.tokens s') :
    ∃ g', read names l g s = ⟨.ok g.size, g', taught l p.drawing, s'⟩ ∧
      (p.shape l).Isomorphic 0 g'.shape g.size := by
  obtain ⟨r, rfl, hvalue, ⟨turns, hleads, hturns⟩, htakes, -⟩ :=
    p.isRead g.size p.place (r := ⟨g, l, s, {}, 0⟩) hs
      ⟨rfl, known_start l g s ▸ hp, fun h => by simp at h, hp.place_eq⟩
  have hfuel : turns ≤ 3 * (s.bound + 2) := by
    have := hs.length_le
    omega
  refine ⟨r.graph, ?_, htakes.drawn.isomorphic htakes.size_eq⟩
  simp only [read, hleads.run_eq_done hfuel]
  rw [hvalue, hp.root_eq, htakes.lattice_eq]
  rfl

theorem exists_phrase_of_read {node : NodeId} (h : (read names l g s).outcome = .ok node) :
    ∃ (p : Phrase names) (s' : Scanner), p.WellNumbered ∧ s.Yields p.tokens s' := by
  have hdone : ∃ r, Agenda.run (turn names) (3 * (s.bound + 2)) ⟨g, l, s, {}, 0⟩ [.whole] =
      .done r := by
    unfold read at h
    dsimp only at h
    split at h
    · rename_i r heq
      exact ⟨r, heq⟩
    · cases h
    · cases h
  obtain ⟨r, hrun⟩ := hdone
  obtain ⟨tokens, s', hs, p, more, rfl, hnumbered, -⟩ := exists_demands hrun
  obtain ⟨s₁, hs₁, -⟩ := (Scanner.yields_append_iff _).1 hs
  rw [known_start] at hnumbered
  exact ⟨p, s₁, hnumbered, hs₁⟩

end Read

/-- Reading succeeds where the tokens begin with a phrase, and nowhere else; it reads that phrase
and no token more, and adds the structure that the phrase denotes. -/
theorem read_phrase (names : NameTable) (l : Lattice) (g : Graph) (s : Scanner) :
    ((∃ node, (read names l g s).outcome = .ok node) ↔
      ∃ (p : Phrase names) (s' : Scanner), p.WellNumbered ∧ s.Yields p.tokens s') ∧
    ∀ {p : Phrase names} {s' : Scanner}, p.WellNumbered → s.Yields p.tokens s' →
      ∃ g', read names l g s = ⟨.ok g.size, g', taught l p.drawing, s'⟩ ∧ g.Added g' ∧
        (p.shape l).Isomorphic 0 g'.shape g.size := by
  refine ⟨⟨fun ⟨node, hnode⟩ => exists_phrase_of_read hnode, fun ⟨p, s', hp, hs⟩ => ?_⟩,
    fun {p s'} hp hs => ?_⟩
  · obtain ⟨g', hread, -⟩ := exists_read hp hs
    exact ⟨g.size, by rw [hread]⟩
  · obtain ⟨g', hread, hiso⟩ := exists_read hp hs
    refine ⟨g', hread, ?_, hiso⟩
    have hadds := (read_spec names l g s).1.added
    rwa [hread] at hadds

/-! ### A circle -/

/-- A node whose value leads back to it. Of the values for its first feature the last one is that
value again; a number of no type stands for the universal type, and the quoted name is new. -/
def circle : Phrase (.ofList ["F", "G"]) :=
  let f : FeatureMark (.ofList ["F", "G"]) := .word "F" 0 (by decide +kernel)
  let g : FeatureMark (.ofList ["F", "G"]) := .number ⟨1, by decide +kernel⟩
  .bracket (some 1) (.word "c") <|
    .cons f (.bracket (some 2) (.quoted "y") <| .cons g (.again 1) .nil) <|
    .cons f (.bracket none (.word "b") .nil) <|
    .cons f (.again 2) <|
    .cons g (.bracket none (.number 7) .nil) .nil

example : circle.drawing.map Bracket.edges =
    [[⟨0, 1⟩, ⟨0, 2⟩, ⟨0, 1⟩, ⟨1, 3⟩], [⟨1, 0⟩], [], []] := by decide

example : bracketTypes Sample.lattice circle.drawing = [.of 3, .of 6, .of 2, .top] := by
  decide +kernel

/-- What follows the phrase is left to be read. -/
theorem read_phrase_circle : circle.WellNumbered ∧
    ∃ (s' : Scanner) (g' : Graph),
      (Scanner.start "#1[c F #2[\"y\" 1 #1] F[b] F #2 1[7]] #1[a]").Yields circle.tokens s' ∧
      read (.ofList ["F", "G"]) Sample.lattice (Graph.empty.add .top [])
        (.start "#1[c F #2[\"y\" 1 #1] F[b] F #2 1[7]] #1[a]") =
          ⟨.ok 1, g', taught Sample.lattice circle.drawing, s'⟩ ∧
      (circle.shape Sample.lattice).Isomorphic 0 g'.shape 1 := by
  have hnumbered : circle.WellNumbered := by
    simp [circle, Phrase.WellNumbered, Phrase.mentions, Pairs.mentions, Numbered]
  have hyields : ∃ s', (Scanner.start "#1[c F #2[\"y\" 1 #1] F[b] F #2 1[7]] #1[a]").Yields
      circle.tokens s' := by decide +kernel
  obtain ⟨s', hs⟩ := hyields
  obtain ⟨g', hread, -, hiso⟩ := (read_phrase _ _ (Graph.empty.add .top []) _).2 hnumbered hs
  exact ⟨hnumbered, s', g', hs, hread, hiso⟩

end FeatureLogic.Notation
