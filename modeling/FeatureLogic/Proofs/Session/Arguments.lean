import FeatureLogic.Proofs.Session.Whole
import FeatureLogic.Proofs.Session.QuickCheck

/-!
Argument lists. The elements that are counted are the arguments that can be asked for
(`Session.arguments_below_arity`): a list is counted up to its first cell without an element, and
only a list that runs in a circle is counted up to the bound. For among more cells than there are
nodes one comes twice (`Session.exists_restOf?_again`), and from there on the cells repeat.
-/

open Relation

namespace FeatureLogic.Session

/-! ## Cells and elements -/

/-- The element at a place of a list, counted from zero. -/
def element? (g : Graph) (first rest : FeatureId) (list : NodeId) (n : Nat) : Option NodeId :=
  (restOf? g rest n list).bind (g.currentValue? · first)

section Cells

variable {g : Graph} {first rest : FeatureId} {list cell : NodeId}

theorem restOf?_succ (n : Nat) (list : NodeId) :
    restOf? g rest (n + 1) list = (g.currentValue? list rest).bind (restOf? g rest n) := by
  rw [restOf?]
  cases g.currentValue? list rest <;> rfl

theorem restOf?_add (n k : Nat) (list : NodeId) :
    restOf? g rest (n + k) list = (restOf? g rest n list).bind (restOf? g rest k) := by
  induction n generalizing list with
  | zero => simp [restOf?]
  | succ n ih =>
    rw [Nat.add_right_comm, restOf?_succ, restOf?_succ]
    cases g.currentValue? list rest with
    | none => rfl
    | some next => exact ih next

theorem element?_zero : element? g first rest list 0 = g.currentValue? list first := rfl

theorem element?_succ (n : Nat) : element? g first rest list (n + 1) =
    (g.currentValue? list rest).bind (element? g first rest · n) := by
  rw [element?, restOf?_succ]
  cases g.currentValue? list rest <;> rfl

theorem element?_add {n : Nat} (hcell : restOf? g rest n list = some cell) (k : Nat) :
    element? g first rest list (n + k) = element? g first rest cell k := by
  simp [element?, restOf?_add, hcell]

theorem restOf?_lt (hg : g.Linked) {list cell : Nat} (hlist : list < g.size) {n : Nat}
    (hcell : restOf? g rest n list = some cell) : cell < g.size := by
  induction n generalizing list with
  | zero =>
    cases hcell
    exact hlist
  | succ n ih =>
    rw [restOf?_succ] at hcell
    obtain ⟨next, hnext, hcell⟩ := Option.bind_eq_some_iff.1 hcell
    exact ih (hg.currentValue?_lt hnext) hcell

/-- From a cell that comes twice the list leads back to it. -/
theorem exists_restOf?_of_eq {i j : Nat} (hlt : i < j) (hi : restOf? g rest i list = some cell)
    (hj : restOf? g rest j list = some cell) :
    ∃ k, i + (k + 1) = j ∧ restOf? g rest (k + 1) cell = some cell := by
  obtain ⟨k, rfl⟩ := Nat.exists_eq_add_of_lt hlt
  rw [Nat.add_assoc, restOf?_add, hi] at hj
  exact ⟨k, rfl, hj⟩

/-- Among more cells than there are nodes one comes twice. -/
theorem exists_restOf?_again (hg : g.Linked) {list : Nat} (hlist : list < g.size)
    (hcells : ∀ n ≤ g.size, ∃ cell, restOf? g rest n list = some cell) :
    ∃ n k cell, n + (k + 1) ≤ g.size ∧ restOf? g rest n list = some cell ∧
      restOf? g rest (k + 1) cell = some cell := by
  choose! cellAt hcellAt using hcells
  have hmaps : ∀ n ∈ Finset.range (g.size + 1), cellAt n ∈ Finset.range g.size := by
    intro n hn
    have hle := Nat.le_of_lt_succ (Finset.mem_range.1 hn)
    exact Finset.mem_range.2 (restOf?_lt hg hlist (hcellAt n hle))
  obtain ⟨i, hi, j, hj, hne, heq⟩ :=
    Finset.exists_ne_map_eq_of_card_lt_of_maps_to (by simp) hmaps
  have hile := Nat.le_of_lt_succ (Finset.mem_range.1 hi)
  have hjle := Nat.le_of_lt_succ (Finset.mem_range.1 hj)
  have hcell := hcellAt i hile
  have hsame := hcellAt j hjle
  rw [← heq] at hsame
  rcases Nat.lt_or_gt_of_ne hne with hlt | hlt
  · obtain ⟨k, rfl, hback⟩ := exists_restOf?_of_eq hlt hcell hsame
    exact ⟨i, k, cellAt i, hjle, hcell, hback⟩
  · obtain ⟨k, rfl, hback⟩ := exists_restOf?_of_eq hlt hsame hcell
    exact ⟨j, k, cellAt _, hile, hsame, hback⟩

theorem exists_restOf?_of_element? {n : Nat} (h : (element? g first rest list n).isSome) :
    ∃ cell, restOf? g rest n list = some cell := by
  obtain ⟨value, hvalue⟩ := Option.isSome_iff_exists.1 h
  obtain ⟨cell, hcell, -⟩ := Option.bind_eq_some_iff.1 hvalue
  exact ⟨cell, hcell⟩

/-- A list with more elements than there are nodes has an element at every place. -/
theorem isSome_element?_of_le_size (hg : g.Linked) {list : Nat} (hlist : list < g.size)
    (h : ∀ n ≤ g.size, (element? g first rest list n).isSome) (n : Nat) :
    (element? g first rest list n).isSome := by
  obtain ⟨i, k, cell, hle, hcell, hagain⟩ :=
    exists_restOf?_again hg hlist fun n hn => exists_restOf?_of_element? (h n hn)
  induction n using Nat.strong_induction_on with
  | _ n ih =>
    by_cases hn : n ≤ g.size
    · exact h n hn
    · -- go back by one round of the circle
      obtain ⟨r, rfl⟩ : ∃ r, n = i + (k + 1 + r) := ⟨n - (i + (k + 1)), by omega⟩
      have hback := ih (i + r) (by omega)
      rw [element?_add hcell] at hback
      rwa [element?_add hcell, element?_add hagain]

end Cells

/-! ## Counting -/

/-- As many elements are counted as there are before the first cell without one, or as many as may
be counted. -/
theorem exists_countElements_eq (g : Graph) (first rest : FeatureId) (fuel : Nat) (list : NodeId)
    (length : Nat) : ∃ count ≤ fuel,
      countElements g first rest fuel list length = length + count ∧
      (∀ n < count, (element? g first rest list n).isSome) ∧
      (count < fuel → element? g first rest list count = none) := by
  induction fuel generalizing list length with
  | zero => exact ⟨0, Nat.le_refl 0, rfl, nofun, nofun⟩
  | succ fuel ih =>
    rw [countElements]
    cases hfirst : g.currentValue? list first with
    | none => exact ⟨0, Nat.zero_le _, rfl, nofun, fun _ => hfirst⟩
    | some value =>
      have hzero : (element? g first rest list 0).isSome := by simp [element?_zero, hfirst]
      cases hrest : g.currentValue? list rest with
      | none =>
        refine ⟨1, by omega, by simp, fun n hn => ?_, fun _ => by simp [element?_succ, hrest]⟩
        obtain rfl : n = 0 := by omega
        exact hzero
      | some next =>
        -- the other elements are those of the rest
        obtain ⟨count, hle, heq, hsome, hnone⟩ := ih next (length + 1)
        refine ⟨count + 1, by omega, ?_, fun n hn => ?_, fun hlt => ?_⟩
        · simp only [Option.isNone_some, Bool.false_eq_true, if_false]
          omega
        · cases n with
          | zero => exact hzero
          | succ n =>
            rw [element?_succ, hrest]
            exact hsome n (by omega)
        · rw [element?_succ, hrest]
          exact hnone (by omega)

/-! ## Arguments -/

/-- One cell further in a list. -/
def RestStep (s : Session) (cell next : NodeId) : Prop :=
  ∃ rest, s.grammar.special.rest = some rest ∧ s.graph.currentValue? cell rest = some next

/-- No cell of the list of arguments comes after itself. -/
def ProperArguments (s : Session) (active : Item) : Prop :=
  ∀ args list, s.grammar.special.args = some args →
    s.graph.currentValue? active.root args = some list →
    ∀ cell, ReflTransGen s.RestStep list cell → ¬ TransGen s.RestStep cell cell

/-- An argument has the marker as the type of its key. -/
def MarkedAsKey (s : Session) (active : Item) (n : Nat) : Prop :=
  ∃ keyArg marker argument value, s.grammar.special.keyArg = some keyArg ∧
    s.grammar.keyMarker = some marker ∧ s.argument? active n = some argument ∧
    s.graph.currentValue? argument keyArg = some value ∧ s.graph.currentType value = marker

section Arguments

variable {s : Session} {active : Item}

theorem reflTransGen_of_restOf? {rest : FeatureId} (hrest : s.grammar.special.rest = some rest)
    {n : Nat} {list cell : NodeId} (h : restOf? s.graph rest n list = some cell) :
    ReflTransGen s.RestStep list cell := by
  induction n generalizing list with
  | zero =>
    cases h
    exact .refl
  | succ n ih =>
    rw [restOf?_succ] at h
    obtain ⟨next, hnext, h⟩ := Option.bind_eq_some_iff.1 h
    exact .head ⟨rest, hrest, hnext⟩ (ih h)

/-- A cell that comes again comes after itself. -/
theorem transGen_of_restOf? {rest : FeatureId} (hrest : s.grammar.special.rest = some rest)
    {n : Nat} {list cell : NodeId} (h : restOf? s.graph rest (n + 1) list = some cell) :
    TransGen s.RestStep list cell := by
  rw [restOf?_succ] at h
  obtain ⟨next, hnext, h⟩ := Option.bind_eq_some_iff.1 h
  exact .head' ⟨rest, hrest, hnext⟩ (reflTransGen_of_restOf? hrest h)

/-- Where there is a list of arguments its elements are asked for and counted; where there is none
there is no argument. -/
theorem arguments_cases (hg : s.graph.Linked) (active : Item) :
    (∃ args first rest list, s.grammar.special.args = some args ∧
      s.grammar.special.rest = some rest ∧
      s.graph.currentValue? active.root args = some list ∧
      s.argument? active = element? s.graph first rest list ∧
      s.arity active = countElements s.graph first rest (s.graph.size + 1) list 0) ∨
    s.arity active = 0 ∧ ∀ n, s.argument? active n = none := by
  unfold arity argument? listLength
  cases hargs : s.grammar.special.args with
  | none => exact .inr ⟨rfl, fun _ => rfl⟩
  | some args =>
    cases hlist : s.graph.currentValue? active.root args with
    | none =>
      refine .inr ⟨by simp [hlist], fun n => ?_⟩
      cases s.grammar.special.first <;> cases s.grammar.special.rest <;> simp [hlist]
    | some list =>
      cases hfirst : s.grammar.special.first with
      | none => exact .inr ⟨by simp [hlist], fun _ => rfl⟩
      | some first =>
        cases hrest : s.grammar.special.rest with
        | none => exact .inr ⟨by simp [hlist], fun _ => rfl⟩
        | some rest =>
          -- the list is given by the node that stands for it
          have hderef : s.graph.deref list = list := by
            obtain ⟨target, -, rfl⟩ := Option.map_eq_some_iff.1 hlist
            exact hg.deref_deref target
          refine .inl ⟨args, first, rest, list, rfl, rfl, hlist, ?_, by simp [hlist, hderef]⟩
          funext n
          simp [hlist, element?]

theorem arity_le (hg : s.graph.Linked) (active : Item) : s.arity active ≤ s.graph.size + 1 := by
  rcases arguments_cases hg active with ⟨_, first, rest, list, -, -, -, -, harity⟩ | ⟨harity, -⟩
  · obtain ⟨count, hle, hcount, -⟩ :=
      exists_countElements_eq s.graph first rest (s.graph.size + 1) list 0
    omega
  · omega

theorem isSome_argument? (hg : s.graph.Linked) {n : Nat} (hn : n < s.arity active) :
    (s.argument? active n).isSome := by
  rcases arguments_cases hg active with
    ⟨_, first, rest, list, -, -, -, hargument, harity⟩ | ⟨harity, -⟩
  · obtain ⟨count, -, hcount, hsome, -⟩ :=
      exists_countElements_eq s.graph first rest (s.graph.size + 1) list 0
    rw [hargument]
    exact hsome n (by omega)
  · omega

theorem argument?_arity (hg : s.graph.Linked) (hle : s.arity active ≤ s.graph.size) :
    s.argument? active (s.arity active) = none := by
  rcases arguments_cases hg active with
    ⟨_, first, rest, list, -, -, -, hargument, harity⟩ | ⟨-, hnone⟩
  · obtain ⟨count, -, hcount, -, hnone⟩ :=
      exists_countElements_eq s.graph first rest (s.graph.size + 1) list 0
    have heq : s.arity active = count := by omega
    rw [hargument, heq]
    exact hnone (by omega)
  · exact hnone _

/-- What is counted up to the bound is a list that goes on for ever. -/
theorem isSome_argument?_of_size_lt (hg : s.graph.Linked)
    (hlt : s.graph.size < s.arity active) (n : Nat) : (s.argument? active n).isSome := by
  have hsome : ∀ n ≤ s.graph.size, (s.argument? active n).isSome :=
    fun n hn => isSome_argument? hg (by omega)
  rcases arguments_cases hg active with
    ⟨_, first, rest, list, -, -, hlist, hargument, -⟩ | ⟨harity, -⟩
  · rw [hargument] at hsome ⊢
    exact isSome_element?_of_le_size hg (hg.currentValue?_lt hlist) hsome n
  · omega

/-- A proper list is shorter than the graph is large. -/
theorem ProperArguments.arity_le (h : s.ProperArguments active) (hg : s.graph.Linked) :
    s.arity active ≤ s.graph.size := by
  by_contra hlt
  have hsome : ∀ n ≤ s.graph.size, (s.argument? active n).isSome :=
    fun n hn => isSome_argument? hg (by omega)
  rcases arguments_cases hg active with
    ⟨args, first, rest, list, hargs, hrest, hlist, hargument, -⟩ | ⟨harity, -⟩
  · rw [hargument] at hsome
    obtain ⟨n, k, cell, -, hcell, hagain⟩ := exists_restOf?_again hg (hg.currentValue?_lt hlist)
      fun n hn => exists_restOf?_of_element? (hsome n hn)
    exact h args list hargs hlist cell (reflTransGen_of_restOf? hrest hcell)
      (transGen_of_restOf? hrest hagain)
  · omega

/-! ## The key -/

theorem isKeyArgument_iff {keyArg : FeatureId} {marker : TypeId} {n : Nat}
    (hkey : s.grammar.special.keyArg = some keyArg) (hmarker : s.grammar.keyMarker = some marker) :
    s.isKeyArgument active keyArg marker n = true ↔ s.MarkedAsKey active n := by
  unfold isKeyArgument MarkedAsKey
  cases hargument : s.argument? active n with
  | none => simp
  | some argument =>
    cases hvalue : s.graph.currentValue? argument keyArg with
    | none => simp [hkey, hvalue]
    | some value =>
      simp only [hkey, hmarker, Option.bind_some, hvalue, Option.some.injEq, beq_iff_eq]
      constructor
      · rintro rfl
        exact ⟨keyArg, _, argument, value, rfl, rfl, rfl, hvalue, rfl⟩
      · rintro ⟨_, _, _, _, rfl, rfl, rfl, hvalue', rfl⟩
        rw [hvalue] at hvalue'
        cases hvalue'
        rfl

/-- The key is the first argument that is marked. -/
theorem keyArgument?_eq_some_iff {n : Nat} : s.keyArgument? active = some n ↔
    n < s.arity active ∧ s.MarkedAsKey active n ∧ ∀ m < n, ¬ s.MarkedAsKey active m := by
  unfold keyArgument?
  cases hkey : s.grammar.special.keyArg with
  | none => simp [MarkedAsKey, hkey]
  | some keyArg =>
    cases hmarker : s.grammar.keyMarker with
    | none => simp [MarkedAsKey, hmarker]
    | some marker =>
      simp only [Option.bind_eq_bind, Option.bind_some, List.find?_range_eq_some,
        List.mem_range, Bool.not_eq_true', ← Bool.not_eq_true, isKeyArgument_iff hkey hmarker]
      tauto

theorem keyArgument?_eq_none_iff : s.keyArgument? active = none ↔
    ∀ n < s.arity active, ¬ s.MarkedAsKey active n := by
  unfold keyArgument?
  cases hkey : s.grammar.special.keyArg with
  | none => simp [MarkedAsKey, hkey]
  | some keyArg =>
    cases hmarker : s.grammar.keyMarker with
    | none => simp [MarkedAsKey, hmarker]
    | some marker =>
      simp only [Option.bind_eq_bind, Option.bind_some, List.find?_eq_none, List.mem_range,
        isKeyArgument_iff hkey hmarker]

end Arguments

/-- Whatever was done in a session, pointers end, so that every value can be looked up, and at most
one element more is counted than there are nodes. Below the arity there is every argument. At the
arity of a proper list there is none, and the bound does not cut it short: only a list with
arguments at all places is counted up to the bound. The key is the first marked argument below the
arity. -/
theorem arguments_below_arity {s : Session} (hs : s.Arises) (active : Item) :
    (∀ n, s.graph.Ends n (s.graph.deref n)) ∧
    s.arity active ≤ s.graph.size + 1 ∧
    (∀ n < s.arity active, ∃ argument, s.argument? active n = some argument) ∧
    (s.ProperArguments active →
      s.arity active ≤ s.graph.size ∧ s.argument? active (s.arity active) = none) ∧
    (s.graph.size < s.arity active ↔ ∀ n, ∃ argument, s.argument? active n = some argument) ∧
    (∀ n, s.keyArgument? active = some n ↔
      n < s.arity active ∧ s.MarkedAsKey active n ∧ ∀ m < n, ¬ s.MarkedAsKey active m) ∧
    (s.keyArgument? active = none ↔ ∀ n < s.arity active, ¬ s.MarkedAsKey active n) := by
  have hg := hs.closed.graph
  simp only [← Option.isSome_iff_exists]
  refine ⟨hg.ends_deref, arity_le hg active, fun n hn => isSome_argument? hg hn, fun hproper => ?_,
    ⟨isSome_argument?_of_size_lt hg, fun hall => ?_⟩, fun n => keyArgument?_eq_some_iff,
    keyArgument?_eq_none_iff⟩
  · have hle := hproper.arity_le hg
    exact ⟨hle, argument?_arity hg hle⟩
  · by_contra hle
    have hnone := argument?_arity hg (Nat.le_of_not_lt hle)
    have hsome := hall (s.arity active)
    rw [hnone] at hsome
    cases hsome

/-! ### A list of two arguments and a circle -/

/-- A grammar with argument lists, in which the type 3 marks the key at the first feature. -/
def keyed : Grammar :=
  { listed [] [] [] with
    special := ⟨some 1, some 2, some 3, some 0, none, none, none⟩
    keyMarker := some (.of 3) }

theorem rooted_keyed : keyed.Rooted :=
  have hrooted := (sound_listed Sample.sound_grammar_nil []).rooted
  ⟨hrooted.prototypes, hrooted.root_lt⟩

/-- Node 0 has a list of two arguments, nodes 3 and 6, and node 1 has a list of one cell, node 2,
which comes after itself. -/
def lists : Graph :=
  .ofNodes [(.top, [⟨0, 1⟩, ⟨1, 4⟩, ⟨4, 8⟩]), (.top, [⟨1, 2⟩]), (.top, [⟨2, 3⟩, ⟨3, 2⟩]),
    (.of 1, []), (.top, [⟨2, 3⟩, ⟨3, 5⟩]), (.top, [⟨2, 6⟩]), (.top, [⟨0, 7⟩]), (.of 1, []),
    (.of 2, [])]

/-- The value in the second argument is unified with the node at the last feature of node 0, which
gives it the type 3. -/
def argued : Session := ((ofGrammar keyed).importFrom lists 0).2.entangled 20 7 8

theorem arises_argued : argued.Arises := by
  have hlead : lists.EdgesLead := (Graph.sound_ofNodes (by decide)).1.edgesLead
  have himported := (Arises.start rooted_keyed).move (m := .importFrom lists 0)
    ⟨nofun, hlead, by decide⟩ rfl
  exact himported.entangled 20 (by decide +kernel) (by decide +kernel)

theorem properArguments_argued : argued.ProperArguments ⟨0, []⟩ := by
  have hargs : argued.grammar.special.args = some 1 := by decide +kernel
  have hrest : argued.grammar.special.rest = some 3 := by decide +kernel
  have hlist : argued.graph.currentValue? 0 1 = some 4 := by decide +kernel
  have hfirst : argued.graph.currentValue? 4 3 = some 5 := by decide +kernel
  have hlast : argued.graph.currentValue? 5 3 = none := by decide +kernel
  have hend : ∀ next, ¬ argued.RestStep 5 next := by
    rintro next ⟨rest, hsome, hnext⟩
    rw [hrest] at hsome
    cases hsome
    rw [hlast] at hnext
    cases hnext
  have hstep : ∀ next, argued.RestStep 4 next → next = 5 := by
    rintro next ⟨rest, hsome, hnext⟩
    rw [hrest] at hsome
    cases hsome
    rw [hfirst] at hnext
    cases hnext
    rfl
  intro args list hsome hvalue cell hcell hcircle
  rw [hargs] at hsome
  cases hsome
  rw [hlist] at hvalue
  cases hvalue
  -- the second cell has none after it, so it is neither on a circle nor before one
  have hafter : ∀ {next}, ReflTransGen argued.RestStep 5 next → next = 5 := by
    intro next h
    rcases h.cases_head with rfl | ⟨c, hc, -⟩
    · rfl
    · exact absurd hc (hend c)
  rcases hcell.cases_head with rfl | ⟨next, hnext, hcell⟩
  · obtain ⟨next, hnext, hback⟩ := TransGen.head'_iff.1 hcircle
    cases hstep next hnext
    exact absurd (hafter hback) (by decide)
  · cases hstep next hnext
    cases hafter hcell
    obtain ⟨next, hnext, -⟩ := TransGen.head'_iff.1 hcircle
    exact hend next hnext

/-- In an open episode an item has two arguments, the second of which is the key by the type that it
got in the episode, and an item with a list that runs in a circle has arguments at all places. -/
theorem arguments_below_arity_argued : argued.Arises ∧
    argued.ProperArguments ⟨0, []⟩ ∧ argued.arity ⟨0, []⟩ = 2 ∧
    argued.argument? ⟨0, []⟩ (argued.arity ⟨0, []⟩) = none ∧
    argued.keyArgument? ⟨0, []⟩ = some 1 ∧
    argued.MarkedAsKey ⟨0, []⟩ 1 ∧ (∀ n < 1, ¬ argued.MarkedAsKey ⟨0, []⟩ n) ∧
    argued.graph.size < argued.arity ⟨1, []⟩ ∧
    ∀ n, ∃ argument, argued.argument? ⟨1, []⟩ n = some argument := by
  have hkey : argued.keyArgument? ⟨0, []⟩ = some 1 := by decide +kernel
  have hcircle : argued.graph.size < argued.arity ⟨1, []⟩ := by decide +kernel
  obtain ⟨-, -, -, hproper, -, hmarked, -⟩ := arguments_below_arity arises_argued ⟨0, []⟩
  obtain ⟨-, -, -, -, hendless, -⟩ := arguments_below_arity arises_argued ⟨1, []⟩
  obtain ⟨-, hlast, hbefore⟩ := (hmarked 1).1 hkey
  exact ⟨arises_argued, properArguments_argued, by decide +kernel,
    (hproper properArguments_argued).2, hkey, hlast, hbefore, hcircle, hendless.1 hcircle⟩

end FeatureLogic.Session
