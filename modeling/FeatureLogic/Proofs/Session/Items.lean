import FeatureLogic.Session.Item
import FeatureLogic.Proofs.Fallible
import FeatureLogic.Proofs.Notation.Parsing
import FeatureLogic.Proofs.QuickCheck
import FeatureLogic.Proofs.Session.Editing
import FeatureLogic.Proofs.Session.Equality
import FeatureLogic.Proofs.Session.Footprint

/-!
Vectors of items. The vector that an item has from when it was made is that of its structure as long
as the structure is edited through the item alone (`Session.current_of_run`). Then items are told
apart by their vectors only where their structures differ.
-/

open Relation

namespace FeatureLogic

/-! ## Structures and their vectors -/

namespace Graph

/-- An edit leaves structures alone that have no node of the edited one. -/
theorem Pruned.isomorphic {g g' : Graph} {root x : NodeId} (h : g.Pruned root g')
    (hapart : ∀ n, g.Below root n → ¬ g.Below x n) : g.shape.Isomorphic x g'.shape x := by
  refine ⟨id, rfl, Set.injOn_id _, fun n hn => ?_⟩
  obtain ⟨htype, hedges⟩ := h.untouched fun hroot => hapart n hroot (below_of_reach hn)
  refine ⟨htype, fun f => ?_⟩
  show Edges.target? f (g'.edges n) = (Edges.target? f (g.edges n)).map id
  rw [hedges, Option.map_id_fun, id]

end Graph

namespace QuickCheck

/-- A vector tells of the types along paths. -/
theorem vector_eq_of_follow (q : QuickCheck) {g g' : Graph} (hr : g.AtRest) (hr' : g'.AtRest)
    {x y : NodeId} (h : ∀ path, (g.shape.follow? x path).map g.type =
      (g'.shape.follow? y path).map g'.type) : q.vector g x = q.vector g' y := by
  refine vector_congr fun path => ?_
  have htype : g.currentType = g.type := funext hr.currentType_eq
  have htype' : g'.currentType = g'.type := funext hr'.currentType_eq
  rw [endOf?_of_atRest hr, endOf?_of_atRest hr', htype, htype']
  exact h path

end QuickCheck

namespace Session

/-- The vector of an item is that of its structure as it is now. -/
def Current (s : Session) (x : Item) : Prop :=
  x.vector = s.grammar.quickCheck.vector s.graph x.root

theorem current_item (s : Session) (root : NodeId) : s.Current (s.item root) := rfl

/-- An item is current where its structure is found again. -/
theorem Current.of_isomorphic {s s' : Session} {x y : Item} (h : s.Current x) (hr : s.AtRest)
    (hr' : s'.AtRest) (hlearned : s.grammar.Learned s'.grammar) (hvector : y.vector = x.vector)
    (hiso : s.shape.Isomorphic x.root s'.shape y.root) : s'.Current y := by
  unfold Current at h ⊢
  rw [hvector, h, hlearned.quickCheck_eq]
  exact QuickCheck.vector_eq_of_follow _ hr hr' fun path => (hiso.follow path path).1.symm

/-- Items that are current are equal if and only if their structures are. -/
theorem equalItems_of_current {s : Session} (hg : s.graph.Sound) (hr : s.AtRest) {x y : Item}
    (hx : x.root < s.graph.size) (hy : y.root < s.graph.size) (hcx : s.Current x)
    (hcy : s.Current y) : (s.equalItems x y).1 = (s.equal x.root y.root).1 := by
  unfold equalItems
  split
  · rfl
  · rename_i hne
    refine (Bool.eq_false_iff.2 fun hequal => hne ?_).symm
    rw [hcx, hcy]
    exact QuickCheck.vector_eq_of_follow _ hr hr (types_of_equal hg hr hx hy hequal)

/-! ## What operations leave -/

/-- The session goes on without an episode and with all that there was. -/
structure Continues (s s' : Session) : Prop where
  learned : s.grammar.Learned s'.grammar
  graph : s.graph.Extends s'.graph
  sound : s'.Sound
  rest : s'.AtRest

section Operations

variable {s s' : Session} (hs : s.Sound) (hr : s.AtRest)
include hs hr

theorem Continues.refl : s.Continues s := ⟨.refl _, .refl _, hs, hr⟩

theorem Continues.current (h : s.Continues s') {x : Item} (hx : x.root < s.graph.size)
    (hc : s.Current x) : s'.Current x :=
  hc.of_isomorphic hr h.rest h.learned rfl (h.graph.isomorphic hs.graph hx)

theorem continues_parse (text : String) : s.Continues (s.parse text).2 ∧
    ∀ root : Nat, (s.parse text).1 = .ok root → root < (s.parse text).2.graph.size := by
  have h := Notation.adds_parse s.grammar.features s.grammar.lattice s.graph text
  have hlearned := s.grammar.learned_of_lattice fun hl =>
    Notation.sound_parse s.grammar.features hl s.graph text
  exact ⟨⟨hlearned, h.added.grown.graph_extends, ⟨hs.grammar.learned hlearned,
    h.added.sound hs.graph⟩, h.added.grown.atRest hs.graph.stamped hr⟩, fun _ hroot =>
      (h.value hroot).2⟩

/-- The nodes of a copy are behind those that there were. -/
theorem continues_clone {root : Nat} (hroot : root < s.graph.size) :
    s.Continues (s.clone root).2 ∧ (s.clone root).1 < (s.clone root).2.graph.size ∧
      s.shape.Isomorphic root (s.clone root).2.shape (s.clone root).1 := by
  have hcopy : (s.clone root).2.graph = s.graph.copyFrom s.graph root :=
    Graph.copyWithin_eq (hs.graph.edgesLead.whole hroot)
  obtain ⟨κ, hκ⟩ := s.graph.copyFrom_spec hs.graph hroot
  have hadded := hκ.added hs.graph
  rw [← hcopy] at hκ hadded
  have hfirst : κ root = (s.clone root).1 := hκ.root_eq
  refine ⟨⟨.refl _, hadded.grown.graph_extends, ⟨hs.grammar, hadded.sound hs.graph⟩,
    hadded.grown.atRest hs.graph.stamped hr⟩, ?_, ?_⟩ <;> rw [← hfirst]
  · exact hκ.copy_lt ReflTransGen.refl
  · exact hκ.isomorphic

theorem continues_extract {root : Nat} (hroot : root < s.graph.size) (r : Restrictor) :
    s.Continues (s.extract root r).2 ∧
      ∀ k : Nat, (s.extract root r).1 = .ok k → k < (s.extract root r).2.graph.size := by
  have he := Graph.entangled_of_atRest hs.graph hr
  obtain ⟨hst, hrest⟩ := stamped_extract hs.graph.stamped root r
  rcases extract_cases he.linked hroot r with
    ⟨s₁, h, heq⟩ | ⟨s₁, n, cursor, waiting, e, h, -, heq⟩ <;> rw [heq] at hst hrest ⊢
  · refine ⟨⟨h.beside.learned, h.invalidated.1, ⟨hs.grammar.learned h.beside.learned,
      (h.sound he).invalidate.1⟩, hrest⟩, fun k hk => ?_⟩
    cases hk
    exact (Graph.size_invalidate s₁.graph).symm ▸
      ((h.below_iff he.linked).1 ReflTransGen.refl).2
  · have hlearned := h.beside.learned
    have hext := h.beside.extends_start
    have hext' := hext.truncate.trans (Graph.extends_invalidate _)
    have hsize : ((s₁.graph.truncate s.graph.size).invalidate).size = s.graph.size := by
      rw [Graph.size_invalidate, Graph.size_truncate]
      exact Nat.min_eq_left hext.size_le
    exact ⟨⟨hlearned, hext', ⟨hs.grammar.learned hlearned,
      hext'.sound_of_size_eq hsize hst hs.graph⟩, hrest⟩, nofun⟩

/-- What comes of a unification of two nodes after which a node is copied out. -/
theorem continues_copied {a b root : Nat} (ha : a < s.graph.size) (hb : b < s.graph.size)
    (hroot : root < s.graph.size) {budget : Nat} {unified : Bool} {s₁ : Session}
    (h : s.entangle budget a b = some (unified, s₁)) {r : Restrictor} {answer : Option NodeId}
    (heq : (if unified then s₁.extractOver s.graph.size root r else (none, s₁)) = (answer, s')) :
    s.Continues s' ∧ ∀ k : Nat, answer = some k → k < s'.graph.size := by
  have he := Graph.entangled_of_atRest hs.graph hr
  have hleaves := leaves_copied ⟨he.linked, hs.grammar.rooted⟩ ha hb hroot h heq
  have hsound : s'.graph.Sound ∧ s'.AtRest := by
    cases unified with
    | true =>
      have hu := unifying_of_done hs he ha hb (run_of_entangle h)
      obtain ⟨answer', s₂, heq₂, hsound, hrest, -⟩ := extractOver_spec hs hu.grammar hu.same hu.graph
        hu.extends_start (Nat.lt_of_lt_of_le hroot hu.extends_start.size_le) r
      rw [if_pos rfl, heq₂] at heq
      cases heq
      exact ⟨hsound.graph, hrest⟩
    | false =>
      cases heq
      obtain ⟨hst, hrest⟩ := stamped_entangle hs.graph.stamped h
      exact ⟨hleaves.extends_start.sound_of_size_eq (hleaves.size_eq rfl) hst hs.graph, hrest rfl⟩
  exact ⟨⟨hleaves.learned, hleaves.extends_start, ⟨hs.grammar.learned hleaves.learned, hsound.1⟩,
    hsound.2⟩, fun k hk => ((hleaves.below_iff hk).1 ReflTransGen.refl).2⟩

omit hr in
/-- An edit in place keeps a session sound and ends the episode. -/
theorem Edits.continues {root : Nat} (h : s.Edits root s') (hroot : root < s.graph.size) :
    s'.Sound ∧ s'.AtRest ∧ s'.graph.size = s.graph.size := by
  obtain ⟨g, hg, heq⟩ := h.graph
  obtain ⟨hsound, hrest⟩ := (hg.sound hs.graph hroot).invalidate
  rw [← heq] at hsound hrest
  exact ⟨⟨hs.grammar.learned h.grammar, hsound⟩, hrest, by rw [heq, Graph.size_invalidate, hg.size_eq]⟩

/-- An edit in place leaves the items current that share no node with the edited structure. -/
theorem Edits.current {root : Nat} (h : s.Edits root s') (hroot : root < s.graph.size) {x : Item}
    (hapart : ∀ n, s.graph.Below root n → ¬ s.graph.Below x.root n) (hc : s.Current x) :
    s'.Current x := by
  obtain ⟨g, hg, heq⟩ := h.graph
  refine hc.of_isomorphic hr (h.continues hs hroot).2.1 h.grammar rfl ?_
  show s.graph.shape.Isomorphic x.root s'.graph.shape x.root
  rw [heq, Graph.shape_invalidate]
  exact hg.isomorphic hapart

end Operations

/-! ## Whole sequences -/

/-- An edit of an item's structure in place. -/
inductive ItemEdit
  | restrict (r : Restrictor)
  | restrictSpecial (r : Restrictor)
  | unfill

/-- The edited item and the session afterwards. -/
def ItemEdit.apply (s : Session) (x : Item) : ItemEdit → Item × Session
  | restrict r => s.restrictItem x r
  | restrictSpecial r => s.restrictItemSpecial x r
  | unfill => s.unfillItem x

/-- An edited item has the vector of its structure as it is then. -/
theorem edits_apply (s : Session) (x : Item) (e : ItemEdit) :
    s.Edits x.root (e.apply s x).2 ∧ (e.apply s x).1 = (e.apply s x).2.item x.root := by
  cases e with
  | restrict r => exact ⟨edits_restrict s x.root r, rfl⟩
  | restrictSpecial r => exact ⟨edits_restrictSpecial s x.root r, rfl⟩
  | unfill => exact ⟨edits_unfill s x.root false, rfl⟩

deriving instance DecidableEq for Item

/-- What is done with items, which are known by their places. -/
inductive Deed
  | parse (text : String)
  | unify (budget a b : Nat)
  | unifyArgument (budget active passive n : Nat) (r : Restrictor)
  | extract (a : Nat) (r : Restrictor)
  | clone (a : Nat)
  | argument (a n : Nat)
  | edit (a : Nat) (e : ItemEdit)

/-- A session with the items that were made in it. -/
structure Desk where
  session : Session
  items : List Item

namespace Desk

/-- A new item, if one was made, comes last. -/
def add (d : Desk) (out : Option Item × Session) : Desk := ⟨out.2, d.items ++ out.1.toList⟩

/-- An edited item keeps its place. -/
def put (d : Desk) (a : Nat) (out : Item × Session) : Desk := ⟨out.2, d.items.set a out.1⟩

/-- What a deed leads to, unless an item that it is about is not there or a budget does not
suffice. -/
def after? (d : Desk) : Deed → Option Desk
  | .parse text =>
    let (x, s) := d.session.parseItem text
    some (d.add (x.toOption, s))
  | .unify budget a b => do
    let x ← d.items[a]?
    let y ← d.items[b]?
    (d.session.unify budget x y).map d.add
  | .unifyArgument budget active passive n r => do
    let x ← d.items[active]?
    let y ← d.items[passive]?
    (d.session.unifyArgument budget x y n r).map d.add
  | .extract a r => d.items[a]?.map fun x => d.add (d.session.extractItem x r)
  | .clone a => d.items[a]?.map fun x =>
    let (y, s) := d.session.cloneItem x
    d.add (some y, s)
  | .argument a n => d.items[a]?.map fun x => d.add (d.session.argumentItem? x n, d.session)
  | .edit a e => d.items[a]?.map fun x => d.put a (e.apply d.session x)

/-- What a sequence of deeds leads to. -/
def run? (d : Desk) : List Deed → Option Desk
  | [] => some d
  | deed :: deeds => (d.after? deed).bind fun d => d.run? deeds

/-- If the deed edits an item, no other item shares a node with it. -/
def Apart (d : Desk) : Deed → Prop
  | .edit a _ => ∀ x, d.items[a]? = some x → ∀ b y, b ≠ a → d.items[b]? = some y →
    ∀ n, d.session.graph.Below x.root n → ¬ d.session.graph.Below y.root n
  | _ => True

/-- Each edit of the sequence is of an item that shares no node with others at the time. -/
def Undisturbed (d : Desk) : List Deed → Prop
  | [] => True
  | deed :: deeds => d.Apart deed ∧ ∀ d', d.after? deed = some d' → d'.Undisturbed deeds

/-- No episode is open, and all items are current. -/
structure Current (d : Desk) : Prop where
  sound : d.session.Sound
  rest : d.session.AtRest
  item : ∀ x ∈ d.items, x.root < d.session.graph.size ∧ d.session.Current x

variable {d d' : Desk}

theorem Current.add (h : d.Current) {out : Option Item × Session}
    (hcontinues : d.session.Continues out.2)
    (hnew : ∀ x, out.1 = some x → x.root < out.2.graph.size ∧ out.2.Current x) :
    (d.add out).Current where
  sound := hcontinues.sound
  rest := hcontinues.rest
  item x hx := by
    rcases List.mem_append.1 hx with hx | hx
    · obtain ⟨hlt, hcurrent⟩ := h.item x hx
      exact ⟨Nat.lt_of_lt_of_le hlt hcontinues.graph.size_le,
        hcontinues.current h.sound h.rest hlt hcurrent⟩
    · exact hnew x (Option.mem_toList.1 hx)

/-- An item that is edited is current, and so are those that share no node with it. -/
theorem Current.put (h : d.Current) {a : Nat} {x : Item} (hx : d.items[a]? = some x) (e : ItemEdit)
    (hapart : d.Apart (.edit a e)) : (d.put a (e.apply d.session x)).Current := by
  obtain ⟨hedits, hitem⟩ := edits_apply d.session x e
  have hlt := (h.item x (List.mem_of_getElem? hx)).1
  obtain ⟨hsound, hrest, hsize⟩ := hedits.continues h.sound hlt
  refine ⟨hsound, hrest, fun y hy => ?_⟩
  show y.root < (e.apply d.session x).2.graph.size ∧ (e.apply d.session x).2.Current y
  rw [hsize]
  obtain ⟨b, hb⟩ := List.mem_iff_getElem?.1 hy
  have hb : (d.items.set a (e.apply d.session x).1)[b]? = some y := hb
  rw [List.getElem?_set] at hb
  split at hb
  · split at hb
    · cases hb
      rw [hitem]
      exact ⟨hlt, current_item _ _⟩
    · cases hb
  · rename_i hne
    obtain ⟨hylt, hyc⟩ := h.item y (List.mem_of_getElem? hb)
    exact ⟨hylt, hedits.current h.sound h.rest hlt (hapart x hx b y (Ne.symm hne) hb) hyc⟩

/-- An item that is made of a node is current. -/
theorem Current.made (h : d.Current) {root : Option NodeId} {s : Session}
    (hcontinues : d.session.Continues s) (hlt : ∀ k : Nat, root = some k → k < s.graph.size) :
    (d.add (item? root s)).Current := by
  refine h.add hcontinues fun x hx => ?_
  obtain ⟨k, hk, rfl⟩ := Option.map_eq_some_iff.1 hx
  exact ⟨hlt k hk, current_item s k⟩

/-- Each deed keeps all items current, unless it edits what another item holds, too. -/
theorem Current.after (h : d.Current) {deed : Deed} (hapart : d.Apart deed)
    (hafter : d.after? deed = some d') : d'.Current := by
  have ⟨hs, hr, hitem⟩ := h
  have hlt : ∀ {a : Nat} {x : Item}, d.items[a]? = some x → x.root < d.session.graph.size :=
    fun hx => (hitem _ (List.mem_of_getElem? hx)).1
  have hlinked := (Graph.entangled_of_atRest hs.graph hr).linked
  cases deed with
  | parse text =>
    cases hafter
    obtain ⟨hcontinues, hroot⟩ := continues_parse hs hr text
    have heq : (d.session.parseItem text).1.toOption =
        (item? (d.session.parse text).1.toOption (d.session.parse text).2).1 := by
      show ((d.session.parse text).1.map _).toOption = _
      cases (d.session.parse text).1 <;> rfl
    show (d.add ((d.session.parseItem text).1.toOption, (d.session.parse text).2)).Current
    rw [heq]
    exact h.made hcontinues fun k hk => hroot k (eq_ok_of_toOption hk)
  | unify budget a b =>
    obtain ⟨x, hx, hafter⟩ := Option.bind_eq_some_iff.1 hafter
    obtain ⟨y, hy, hafter⟩ := Option.bind_eq_some_iff.1 hafter
    obtain ⟨out, hout, rfl⟩ := Option.map_eq_some_iff.1 hafter
    obtain ⟨⟨root, s⟩, hunify, rfl⟩ := Option.map_eq_some_iff.1 hout
    obtain ⟨⟨unified, s₁⟩, hentangle, heq⟩ := Option.map_eq_some_iff.1 hunify
    obtain ⟨hcontinues, hroot⟩ :=
      continues_copied hs hr (hlt hx) (hlt hy) (hlt hx) hentangle heq
    exact h.made hcontinues hroot
  | unifyArgument budget active passive n r =>
    obtain ⟨x, hx, hafter⟩ := Option.bind_eq_some_iff.1 hafter
    obtain ⟨y, hy, hafter⟩ := Option.bind_eq_some_iff.1 hafter
    obtain ⟨out, hout, rfl⟩ := Option.map_eq_some_iff.1 hafter
    obtain ⟨⟨unified, s₁⟩, hentangle, heq⟩ := Option.map_eq_some_iff.1 hout
    rcases entangleArgument_cases hlinked hentangle with
      ⟨argument, hargument, hentangle⟩ | ⟨rfl, rfl⟩
    · have hcopied : ∀ {answer s},
          (if unified then s₁.extractOver d.session.graph.size x.root r else (none, s₁)) =
            (answer, s) →
          d.session.Continues s ∧ ∀ k : Nat, answer = some k → k < s.graph.size :=
        continues_copied hs hr hargument (hlt hy) (hlt hx) hentangle
      cases unified with
      | true =>
        cases heq
        obtain ⟨hcontinues, hroot⟩ := hcopied rfl
        exact h.made hcontinues hroot
      | false =>
        cases heq
        exact h.add (hcopied rfl).1 nofun
    · cases heq
      exact h.add (.refl hs hr) nofun
  | extract a r =>
    obtain ⟨x, hx, rfl⟩ := Option.map_eq_some_iff.1 hafter
    obtain ⟨hcontinues, hroot⟩ := continues_extract hs hr (hlt hx) r
    exact h.made hcontinues fun k hk => hroot k (eq_ok_of_toOption hk)
  | clone a =>
    obtain ⟨x, hx, rfl⟩ := Option.map_eq_some_iff.1 hafter
    obtain ⟨hcontinues, hroot, hiso⟩ := continues_clone hs hr (hlt hx)
    refine h.add hcontinues fun y hy => ?_
    cases hy
    exact ⟨hroot, (hitem x (List.mem_of_getElem? hx)).2.of_isomorphic hr hcontinues.rest
      hcontinues.learned rfl hiso⟩
  | argument a n =>
    obtain ⟨x, hx, rfl⟩ := Option.map_eq_some_iff.1 hafter
    refine h.add (.refl hs hr) fun y hy => ?_
    obtain ⟨k, hk, rfl⟩ := Option.map_eq_some_iff.1 hy
    exact ⟨argument_lt hlinked hk, current_item _ _⟩
  | edit a e =>
    obtain ⟨x, hx, rfl⟩ := Option.map_eq_some_iff.1 hafter
    exact h.put hx e hapart

/-- Whatever is done with items, all of them stay current, as long as only structures are edited in
place that no other item holds. And items compare as their structures do. -/
theorem current_of_run (h : d.Current) {deeds : List Deed} (hapart : d.Undisturbed deeds)
    (hrun : d.run? deeds = some d') :
    (∀ x ∈ d'.items, d'.session.Current x) ∧ ∀ x ∈ d'.items, ∀ y ∈ d'.items,
      (d'.session.equalItems x y).1 = (d'.session.equal x.root y.root).1 := by
  have hcurrent : d'.Current := by
    induction deeds generalizing d with
    | nil =>
      cases hrun
      exact h
    | cons deed deeds ih =>
      obtain ⟨d₁, hafter, hrest⟩ := Option.bind_eq_some_iff.1 hrun
      exact ih (h.after hapart.1 hafter) (hapart.2 d₁ hafter) hrest
  refine ⟨fun x hx => (hcurrent.item x hx).2, fun x hx y hy => ?_⟩
  obtain ⟨hxlt, hxc⟩ := hcurrent.item x hx
  obtain ⟨hylt, hyc⟩ := hcurrent.item y hy
  exact equalItems_of_current hcurrent.sound.graph hcurrent.rest hxlt hylt hxc hyc

/-- Nothing is on the desk yet. Nodes of type 1 without a value of the first feature have lost
nothing that their prototype does not give back. -/
def blank : Desk where
  session := Sample.session
    { listed [(.of 1, [⟨0, 1⟩]), (.of 1, [])] [(.of 1, 0)] [[0]] with
      appropriate := .ofList [(0, ⟨.of 1, .of 1⟩)] _ } []
  items := []

theorem current_blank : blank.Current where
  sound := by
    obtain ⟨hlattice, hprototypes, hroot, hpossible⟩ : (Sample.grammar [(.of 1, [⟨0, 1⟩]),
      (.of 1, [])] [(.of 1, 0)]).Sound := Sample.sound_grammar (by decide) (by decide) (by decide)
    exact ⟨⟨hlattice, hprototypes, hroot, hpossible⟩, (Graph.sound_ofNodes (by decide)).1⟩
  rest := (Graph.sound_ofNodes (by decide)).2
  item := nofun

/-- A rule is read and copied, and the copy is unfilled. -/
theorem current_of_run_blank : ∃ d', blank.Current ∧
    blank.Undisturbed [.parse "[*top* ARGS [*top* FIRST [a F [a]]]]", .clone 0, .edit 1 .unfill] ∧
    blank.run? [.parse "[*top* ARGS [*top* FIRST [a F [a]]]]", .clone 0, .edit 1 .unfill] =
      some d' ∧ d'.items.length = 2 ∧
    ((∀ x ∈ d'.items, d'.session.Current x) ∧ ∀ x ∈ d'.items, ∀ y ∈ d'.items,
      (d'.session.equalItems x y).1 = (d'.session.equal x.root y.root).1) := by
  have hrun : (blank.run? [.parse "[*top* ARGS [*top* FIRST [a F [a]]]]", .clone 0,
      .edit 1 .unfill]).map (fun d => d.items.length) = some 2 := by
    decide +kernel
  obtain ⟨d', hrun, hlength⟩ := Option.map_eq_some_iff.1 hrun
  -- neither the nodes of the rule nor those of its copy lead to the others
  let rule : List Nat := [0, 1, 2, 3]
  let copy : List Nat := [4, 5, 6, 7]
  have hcopied : (blank.run? [.parse "[*top* ARGS [*top* FIRST [a F [a]]]]", .clone 0]).map
      (fun d : Desk => (d.items.map Item.root,
        decide (∀ n ∈ rule, ∀ e ∈ d.session.graph.edges n, e.target ∈ rule),
        decide (∀ n ∈ copy, ∀ e ∈ d.session.graph.edges n, e.target ∈ copy))) =
      some ([0, 4], true, true) := by
    decide +kernel
  have hapart : blank.Undisturbed [.parse "[*top* ARGS [*top* FIRST [a F [a]]]]", .clone 0,
      .edit 1 .unfill] := by
    refine ⟨trivial, fun d₁ h₁ => ⟨trivial, fun d₂ h₂ => ⟨fun x hx b y hb hy n hn hn' => ?_,
      fun _ _ => trivial⟩⟩⟩
    simp only [run?, h₁, h₂, Option.bind_some, Option.map_some, Option.some.injEq, Prod.mk.injEq,
      decide_eq_true_eq] at hcopied
    obtain ⟨hroots, hrule, hcopy⟩ := hcopied
    have hroot : ∀ {c : Nat} {z : Item}, d₂.items[c]? = some z → [0, 4][c]? = some z.root := by
      intro c z hz
      rw [← hroots, List.getElem?_map, hz]
      rfl
    have hx := hroot hx
    have hy := hroot hy
    have hzero : b = 0 := by
      have := (List.getElem?_eq_some_iff.1 hy).1
      simp at this
      omega
    subst hzero
    have hxroot : 4 = x.root := Option.some.inj hx
    have hyroot : 0 = y.root := Option.some.inj hy
    have hcopied : n ∈ copy := Graph.mem_of_below hcopy (by decide) (hxroot ▸ hn)
    have hread : n ∈ rule := Graph.mem_of_below hrule (by decide) (hyroot ▸ hn')
    exact (by decide : ∀ n ∈ copy, n ∉ rule) n hcopied hread
  exact ⟨d', current_blank, hapart, hrun, hlength, current_of_run current_blank hapart hrun⟩

/-- An argument of a rule is not current any more when the rule is unfilled: its vector tells of a
value that it has lost. So it is told apart from an item that has the same structure. -/
theorem not_current_of_run : ∃ (d d' : Desk) (deeds : List Deed), d.Current ∧ d.items = [] ∧
    d.run? deeds = some d' ∧ ∃ x ∈ d'.items, ∃ y ∈ d'.items, ¬ d'.session.Current x ∧
      (d'.session.equalItems x y).1 ≠ (d'.session.equal x.root y.root).1 := by
  have hanswer : (blank.run? [.parse "[*top* ARGS [*top* FIRST [a F [a]]]]", .argument 0 0,
      .parse "[a]", .edit 0 .unfill]).map (fun d => (d.items,
        d.session.grammar.quickCheck.vector d.session.graph 2,
        (d.session.equalItems ⟨2, [.of 1]⟩ ⟨4, [.bottom]⟩).1, (d.session.equal 2 4).1)) =
      some ([⟨0, [.bottom]⟩, ⟨2, [.of 1]⟩, ⟨4, [.bottom]⟩], [.bottom], false, true) := by
    decide +kernel
  obtain ⟨d', hrun, heq⟩ := Option.map_eq_some_iff.1 hanswer
  simp only [Prod.mk.injEq] at heq
  obtain ⟨hitems, hvector, hdiffer, hequal⟩ := heq
  refine ⟨blank, d', _, current_blank, rfl, hrun, ⟨2, [.of 1]⟩, by simp [hitems], ⟨4, [.bottom]⟩,
    by simp [hitems], fun hcurrent => ?_, by simp [hdiffer, hequal]⟩
  have hvector' : [TypeId.of 1] = _ := hcurrent
  rw [hvector] at hvector'
  cases hvector'

end Desk

end Session

end FeatureLogic
