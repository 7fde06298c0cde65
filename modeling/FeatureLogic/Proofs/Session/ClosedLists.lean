import FeatureLogic.Proofs.Session.SpecialPruning

/-!
Difference lists under special restriction. A list whose front is its tail is empty, and its front
loses its edges when the walk comes to the list. But the walk writes back the edges of the nodes
that it goes through, so a front that it goes through at that time has them again at the end. This
can be only where a way leads to the front and on to the list (`Session.edges_front_eq_nil`).
-/

open Relation

namespace FeatureLogic

namespace Pruning

/-! ## Ways -/

/-- A way along edges that are kept, which does not go on from `n`. -/
def Way (deleted : FeatureSet) (g : Graph) (n : NodeId) : NodeId → NodeId → Prop :=
  ReflTransGen fun x y =>
    x ≠ n ∧ ∃ e ∈ g.edges x, deleted.contains e.feature = false ∧ e.target = y

/-- The walk may be going through the node `front` when it comes to `n`: a way leads from the root
to it and on to `n`, and comes to `n` at its end only. -/
structure Precedes (deleted : FeatureSet) (g : Graph) (root front n : NodeId) : Prop where
  ne : front ≠ n
  reach : Way deleted g n root front
  leads : Way deleted g n front n

section Rising

variable {deleted : FeatureSet} {s : Session} {root : NodeId} {t t' : SpecialTask}
  {waiting : List SpecialTask}

/-- Each task is one step above the next one, and the last is at the root. -/
def Rising (deleted : FeatureSet) (s : Session) (root : NodeId) : List SpecialTask → Prop
  | [] => True
  | [t] => t.place.1 = root
  | t :: lower :: waiting => Steps (.simple deleted) s.graph lower.place t.place ∧
    Rising deleted s root (lower :: waiting)

theorem Rising.tail (h : Rising deleted s root (t :: waiting)) : Rising deleted s root waiting := by
  cases waiting with
  | nil => trivial
  | cons lower rest => exact h.2

theorem Rising.replace (h : Rising deleted s root (t :: waiting)) (hplace : t'.place = t.place) :
    Rising deleted s root (t' :: waiting) := by
  cases waiting with
  | nil => exact (congrArg Prod.fst hplace).trans h
  | cons lower rest => exact ⟨hplace ▸ h.1, h.2⟩

theorem Rising.goOn {slash : Option FeatureId} {asked : List SpecialTask}
    (h : Rising deleted s root (t :: waiting))
    (hedges : t.edges.Sublist (s.graph.edges t.place.1))
    (hgoes : GoesOn (.simple deleted) slash t asked t') :
    Rising deleted s root (asked ++ t' :: waiting) := by
  have h' := h.replace hgoes.place_eq
  rcases hgoes.asks with rfl | ⟨e, he, depth, hkeeps, hdown, rfl, -⟩
  · exact h'
  · refine ⟨?_, h'⟩
    rw [hgoes.place_eq]
    exact ⟨e, hedges.subset he, hkeeps, hdown, rfl⟩

theorem keeps_simple {cursor : RestrictCursor} {f : FeatureId}
    (h : (Restrictor.simple deleted).keeps cursor f = true) : deleted.contains f = false := by
  cases hdeleted : deleted.contains f with
  | false => rfl
  | true => simp [Restrictor.keeps, Restrictor.simple, hdeleted] at h

/-- The tasks below the first one lie on a way from the root to it, and so each node among them
comes before a node at the top that is not among them. -/
theorem Rising.way {n : NodeId} (h : Rising deleted s root (t :: waiting))
    (hne : ∀ lower ∈ waiting, lower.place.1 ≠ n) :
    Way deleted s.graph n root t.place.1 ∧ ∀ lower ∈ waiting,
      Way deleted s.graph n root lower.place.1 ∧
        Way deleted s.graph n lower.place.1 t.place.1 := by
  induction waiting generalizing t with
  | nil =>
    rw [show t.place.1 = root from h]
    exact ⟨.refl, nofun⟩
  | cons next rest ih =>
    obtain ⟨hreach, hrest⟩ := ih h.2 fun lower hlower => hne lower (List.mem_cons_of_mem _ hlower)
    obtain ⟨e, he, hkeeps, -, hplace⟩ := h.1
    have hstep : next.place.1 ≠ n ∧ ∃ e ∈ s.graph.edges next.place.1,
        deleted.contains e.feature = false ∧ e.target = t.place.1 :=
      ⟨hne next (List.mem_cons_self ..), e, he, keeps_simple hkeeps,
        (congrArg Prod.fst hplace).symm⟩
    refine ⟨hreach.tail hstep, List.forall_mem_cons.2 ⟨⟨hreach, .single hstep⟩, ?_⟩⟩
    exact fun lower hlower => ⟨(hrest lower hlower).1, (hrest lower hlower).2.tail hstep⟩

end Rising

/-! ## Lists that are come to -/

section Lists

variable {deleted : FeatureSet} {p : Pruning} {n front : NodeId} {cursor : RestrictCursor}
  {diffList : TypeId} {list last : FeatureId}

/-- The front of a closed list loses its edges. -/
theorem edges_emptyClosed (hl : p.session.grammar.lattice.Sound)
    (hdiff : p.session.grammar.diffList = some diffList)
    (hlist : p.session.grammar.special.list = some list)
    (hlast : p.session.grammar.special.last = some last)
    (hle : p.session.hierarchy.Le (p.session.graph.type n) diffList)
    (hfront : p.session.graph.value? n list = some front)
    (htail : p.session.graph.value? n last = some front) :
    (p.emptyClosed n).session.graph.edges front = [] := by
  obtain ⟨⟨grammar, graph, failures⟩, seen⟩ := p
  have hsubsumes : (grammar.lattice.subsumes diffList (graph.type n)).1 = true :=
    (hl.subsumes_iff diffList (graph.type n)).2 hle
  dsimp only at hdiff hlist hlast hfront htail
  simp only [emptyClosed, hdiff, hlist, hlast, Session.ask, hsubsumes, if_true, hfront, htail]
  refine (Graph.edges_setEdges ..).trans ?_
  split
  · rfl
  · rename_i hout
    exact Graph.edges_of_le (Nat.le_of_not_lt fun hlt => hout ⟨rfl, hlt⟩)

theorem type_emptyClosed (p : Pruning) (n m : NodeId) :
    (p.emptyClosed n).session.graph.type m = p.session.graph.type m := by
  obtain ⟨grammar, -, heq | ⟨_, front, -, heq⟩⟩ := emptyClosed_cases p n <;> rw [heq]
  exact Graph.type_setEdges ..

/-- Without rules types stay as they are. -/
theorem type_generalize (deleted : FeatureSet) (p : Pruning) (n : NodeId) (cursor : RestrictCursor)
    (m : NodeId) :
    (p.generalize (.simple deleted) n cursor).session.graph.type m = p.session.graph.type m := by
  have htype : (p.generalize (.simple deleted) n cursor).session.graph.type m =
      if n = m ∧ n < p.session.graph.size then p.session.graph.type n
      else p.session.graph.type m := Graph.type_setType ..
  rw [htype]
  split
  · rename_i hm
    rw [hm.1]
  · rfl

theorem type_come (deleted : FeatureSet) (p : Pruning) (n : NodeId) (cursor : RestrictCursor)
    (m : NodeId) :
    (p.come (.simple deleted) n cursor).session.graph.type m = p.session.graph.type m :=
  (type_generalize ..).trans (type_emptyClosed (p.mark n cursor) n m)

theorem edges_come {deleted : FeatureSet} (hl : p.session.grammar.lattice.Sound)
    (hdiff : p.session.grammar.diffList = some diffList)
    (hlist : p.session.grammar.special.list = some list)
    (hlast : p.session.grammar.special.last = some last)
    (hle : p.session.hierarchy.Le (p.session.graph.type n) diffList)
    (hfront : p.session.graph.value? n list = some front)
    (htail : p.session.graph.value? n last = some front) :
    (p.come (.simple deleted) n cursor).session.graph.edges front = [] :=
  (Graph.edges_setType ..).trans
    (edges_emptyClosed (p := p.mark n cursor) hl hdiff hlist hlast hle hfront htail)

end Lists

/-! ## The walk -/

section Walk

variable {u : Unfilling} {deleted : FeatureSet} {s : Session} {root : NodeId} {p p' : Pruning}
  {t t' : SpecialTask} {asked tasks tasks' waiting : List SpecialTask} {diffList : TypeId}
  {list last : FeatureId}

/-- The node has the edge, or it is gone through and may get the edge back. -/
def MayKeep (p : Pruning) (tasks : List SpecialTask) (n : NodeId) (e : Edge) : Prop :=
  e ∈ p.session.graph.edges n ∨ ∃ t ∈ tasks, t.place.1 = n ∧ e ∈ t.edges

/-- What holds between two turns of a special restriction without rules: the front of a closed list
that was come to stays empty, unless the walk may have been going through it then. -/
structure Empties (deleted : FeatureSet) (diffList : TypeId) (list last : FeatureId) (s : Session)
    (root : NodeId) (p : Pruning) (tasks : List SpecialTask) : Prop where
  proceeds : Proceeds (.simple deleted) s root p tasks
  rising : Rising deleted s root tasks
  type_eq : ∀ n, p.session.graph.type n = s.graph.type n
  empty : ∀ {n cursor front}, (n, cursor) ∈ p.seen → s.hierarchy.Le (s.graph.type n) diffList →
    MayKeep p tasks n ⟨list, front⟩ → MayKeep p tasks n ⟨last, front⟩ →
    (∀ e, ¬ MayKeep p tasks front e) ∨ Precedes deleted s.graph root front n

theorem empties_start (deleted : FeatureSet) (diffList : TypeId) (list last : FeatureId)
    (s : Session) (root : NodeId) :
    Empties deleted diffList list last s root (.start s) [.enter root .open 0] where
  proceeds := proceeds_start (Restrictor.grounded_simple deleted) s root
  rising := rfl
  type_eq _ := rfl
  empty h := absurd h Std.HashSet.not_mem_empty

/-- What was empty stays empty while nothing is come to and nothing comes back. -/
theorem Empties.mono (h : Empties deleted diffList list last s root p tasks)
    (hproceeds : Proceeds (.simple deleted) s root p' tasks')
    (hrising : Rising deleted s root tasks')
    (htype : ∀ n, p'.session.graph.type n = p.session.graph.type n) (hseen : p'.seen = p.seen)
    (hmay : ∀ {n e}, MayKeep p' tasks' n e → MayKeep p tasks n e) :
    Empties deleted diffList list last s root p' tasks' where
  proceeds := hproceeds
  rising := hrising
  type_eq n := (htype n).trans (h.type_eq n)
  empty hn hle hlist hlast := by
    rw [hseen] at hn
    exact (h.empty hn hle (hmay hlist) (hmay hlast)).imp_left fun hnone e he => hnone e (hmay he)

/-- A node that is gone on with may keep no edge that it might not have kept before. -/
theorem mayKeep_goOn {slash : Option FeatureId} {n : NodeId} {e : Edge}
    (hgoes : GoesOn (.simple deleted) slash t asked t')
    (h : MayKeep p (asked ++ t' :: waiting) n e) : MayKeep p (t :: waiting) n e := by
  refine h.imp_right ?_
  rintro ⟨t'', ht'', hn, he⟩
  rcases List.mem_append.1 ht'' with hmem | hmem
  · rcases hgoes.asks with rfl | ⟨d, -, depth, -, -, rfl, -⟩
    · cases hmem
    · rw [List.mem_singleton.1 hmem] at he
      cases he
  · rcases List.mem_cons.1 hmem with rfl | hmem
    · exact ⟨t, List.mem_cons_self .., hgoes.place_eq ▸ hn, hgoes.sublist.subset he⟩
    · exact ⟨t'', List.mem_cons_of_mem _ hmem, hn, he⟩

/-- A node that is done with gets no edge that it might not have kept. -/
theorem mayKeep_finish {n : NodeId} {e : Edge}
    (h : MayKeep (p.mapGraph (·.setEdges t.place.1 t.edges)) waiting n e) :
    MayKeep p (t :: waiting) n e := by
  rcases h with he | ⟨t', ht', hn, he⟩
  · have hedges : (p.mapGraph (·.setEdges t.place.1 t.edges)).session.graph.edges n =
        if t.place.1 = n ∧ t.place.1 < p.session.graph.size then t.edges
        else p.session.graph.edges n := Graph.edges_setEdges ..
    rw [hedges] at he
    split at he
    · rename_i heq
      exact .inr ⟨t, List.mem_cons_self .., heq.1, he⟩
    · exact .inl he
  · exact .inr ⟨t', List.mem_cons_of_mem _ ht', hn, he⟩

section Visit

variable {n : NodeId} {cursor : RestrictCursor} {depth : Nat}

/-- The edges of a node that is come to are those that it has then. -/
theorem mayKeep_come {m : NodeId} {e : Edge}
    (h : MayKeep p' (.decide n cursor depth (p'.session.graph.edges n) [] :: waiting) m e) :
    e ∈ p'.session.graph.edges m ∨ ∃ t ∈ waiting, t.place.1 = m ∧ e ∈ t.edges := by
  rcases h with he | ⟨t, ht, hm, he⟩
  · exact .inl he
  · rcases List.mem_cons.1 ht with rfl | ht
    · cases hm
      exact .inl he
    · exact .inr ⟨t, ht, hm, he⟩

variable (h : Empties deleted diffList list last s root p (.enter n cursor depth :: waiting))
  (hp : p' = p.come (.simple deleted) n cursor)
  (hproceeds : Proceeds (.simple deleted) s root p'
    (.decide n cursor depth (p'.session.graph.edges n) [] :: waiting))
include h hp

/-- A closed list that the walk comes to has an empty front then. -/
theorem Empties.edges_front (hl : s.grammar.lattice.Sound)
    (hsorted : ∀ n, Edges.Sorted (s.graph.edges n)) (hdiff : s.grammar.diffList = some diffList)
    (hlist : s.grammar.special.list = some list) (hlast : s.grammar.special.last = some last)
    {front : NodeId} (hle : s.hierarchy.Le (s.graph.type n) diffList)
    (hfront : ⟨list, front⟩ ∈ p'.session.graph.edges n)
    (htail : ⟨last, front⟩ ∈ p'.session.graph.edges n) : p'.session.graph.edges front = [] := by
  have hgrammar := h.proceeds.shrinks.grammar
  have hl' : p.session.grammar.lattice.Sound := (hgrammar.sound hl).1
  have horder : p.session.hierarchy = s.hierarchy := (hgrammar.sound hl).2
  have hshrinks : Shrinks p p' := hp ▸ shrinks_come ..
  have hvalue : ∀ {f}, ⟨f, front⟩ ∈ p'.session.graph.edges n →
      p.session.graph.value? n f = some front := fun hf =>
    (Edges.target?_eq_some_iff ((hsorted n).sublist (h.proceeds.shrinks.sublist n))).2
      ((hshrinks.sublist n).subset hf)
  have hle' : p.session.hierarchy.Le (p.session.graph.type n) diffList := by
    rw [h.type_eq, horder]
    exact hle
  rw [hp]
  refine edges_come hl' ?_ ?_ ?_ hle' (hvalue hfront) (hvalue htail) <;> rw [hgrammar.eq]
  · exact hdiff
  · exact hlist
  · exact hlast

include hproceeds

/-- When the walk comes to a closed list, its front is empty from then on, or it is among the nodes
that the walk goes through, and these lie on a way to the list. -/
theorem Empties.visit (hl : s.grammar.lattice.Sound) (hsorted : ∀ n, Edges.Sorted (s.graph.edges n))
    (hdiff : s.grammar.diffList = some diffList) (hlist : s.grammar.special.list = some list)
    (hlast : s.grammar.special.last = some last) :
    Empties deleted diffList list last s root p'
      (.decide n cursor depth (p'.session.graph.edges n) [] :: waiting) := by
  have hshrinks : Shrinks p p' := hp ▸ shrinks_come ..
  have hmay : ∀ {m e},
      MayKeep p' (.decide n cursor depth (p'.session.graph.edges n) [] :: waiting) m e →
      MayKeep p (.enter n cursor depth :: waiting) m e := fun hm =>
    (mayKeep_come hm).imp (fun he => (hshrinks.sublist _).subset he)
      fun ⟨t, ht, hm, he⟩ => ⟨t, List.mem_cons_of_mem _ ht, hm, he⟩
  refine ⟨hproceeds, h.rising.replace rfl, fun m => ?_, fun {m cursor' front} hm hle hfront htail =>
    ?_⟩
  · rw [hp, type_come]
    exact h.type_eq m
  · rw [hp, mem_seen_come] at hm
    rcases hm with heq | hseen
    · -- the list that the walk comes to now: its front is waiting, or it is through with it
      obtain ⟨rfl, rfl⟩ := Prod.mk.inj heq
      have hapart : ∀ lower ∈ waiting, lower.place.1 ≠ m := fun lower hlower =>
        ((List.pairwise_cons.1 hproceeds.stacked.apart).1 lower hlower rfl).symm
      have hedge : ∀ {e}, MayKeep p'
          (.decide m cursor' depth (p'.session.graph.edges m) [] :: waiting) m e →
          e ∈ p'.session.graph.edges m := fun he =>
        (mayKeep_come he).resolve_right fun ⟨t, ht, hm, _⟩ => hapart t ht hm
      have hempty := h.edges_front hp hl hsorted hdiff hlist hlast hle (hedge hfront) (hedge htail)
      by_cases hopen : ∃ t ∈ waiting, t.place.1 = front
      · obtain ⟨t, ht, rfl⟩ := hopen
        obtain ⟨-, hway⟩ := h.rising.way hapart
        exact .inr ⟨hapart t ht, (hway t ht).1, (hway t ht).2⟩
      · refine .inl fun e he => ?_
        rcases mayKeep_come he with he | ⟨t, ht, hfront, -⟩
        · rw [hempty] at he
          cases he
        · exact hopen ⟨t, ht, hfront⟩
    · exact (h.empty hseen hle (hmay hfront) (hmay htail)).imp_left fun hnone e he =>
        hnone e (hmay he)

end Visit

theorem keeps_empties (hl : s.grammar.lattice.Sound)
    (hsorted : ∀ n, Edges.Sorted (s.graph.edges n)) (hdiff : s.grammar.diffList = some diffList)
    (hlist : s.grammar.special.list = some list) (hlast : s.grammar.special.last = some last) :
    Agenda.Keeps (specialTurn u (.simple deleted)) (Empties deleted diffList list last s root) where
  next {p t waiting p' tasks} h ht := by
    have hs := untangled_simple deleted s root
    have hproceeds := (keeps_proceeds (Restrictor.grounded_simple deleted) hs).next h.proceeds ht
    rcases h.proceeds.turn_cases hs ht with ⟨-, -, rfl, rfl⟩ |
      ⟨n, cursor, depth, rfl, -, rfl, rfl⟩ | ⟨-, rfl, rfl, -⟩ |
      ⟨hframe, rfl, asked, t', rfl, hgoes⟩
    · exact h.mono hproceeds h.rising.tail (fun _ => rfl) rfl fun hm =>
        hm.imp_right fun ⟨t', ht', hm⟩ => ⟨t', List.mem_cons_of_mem _ ht', hm⟩
    · exact h.visit rfl hproceeds hl hsorted hdiff hlist hlast
    · exact h.mono hproceeds h.rising.tail (fun _ => Graph.type_setEdges ..) rfl mayKeep_finish
    · have hsublist := (h.proceeds.frame t (List.mem_cons_self ..) hframe).sublist
      rw [List.append_assoc] at hproceeds ⊢
      exact h.mono hproceeds (h.rising.goOn hsublist hgoes) (fun _ => rfl) rfl (mayKeep_goOn hgoes)

/-- When no task waits, the walk has come to all that is left below the root. -/
theorem Proceeds.mem_seen_of_below (h : Proceeds (.simple deleted) s root p []) {n : NodeId}
    (hn : p.session.graph.Below root n) : (n, .open) ∈ p.seen := by
  have hcome : ∀ place, Coming p [] place → place ∈ p.seen :=
    fun place hplace => hplace.resolve_right fun ⟨_, hmem⟩ => List.not_mem_nil hmem
  induction hn with
  | refl => exact hcome _ h.begun
  | tail _ hstep ih =>
    obtain ⟨e, he, rfl⟩ := hstep
    exact hcome _ ((h.finished ih (List.forall_mem_nil _) he).2 rfl)

end Walk

end Pruning

namespace Session

open Pruning

section ClosedLists

variable {s : Session} {diffList : TypeId} {list last : FeatureId} (hs : s.Sound)
  (hdiff : s.grammar.diffList = some diffList) (hlist : s.grammar.special.list = some list)
  (hlast : s.grammar.special.last = some last)
include hs hdiff hlist hlast

theorem exists_empties_restrictSpecial (root : NodeId) (deleted : FeatureSet) :
    ∃ p, Empties deleted diffList list last s root p [] ∧
      s.restrictSpecial root (.simple deleted) = p.session.invalidate :=
  exists_done_restrictSpecial s (Restrictor.grounded_simple deleted)
    (untangled_simple deleted s root)
    (fun _ => keeps_empties hs.grammar.lattice hs.graph.sorted hdiff hlist hlast) (empties_start ..)

/-- In what a special restriction without rules leaves, the front of a closed difference list has
no edges, unless a way leads to the front and on to the list, coming to the list at its end only. -/
theorem edges_front_eq_nil (deleted : FeatureSet) {root n front : NodeId}
    (hn : (s.restrictSpecial root (.simple deleted)).graph.Below root n)
    (htype : s.hierarchy.Le ((s.restrictSpecial root (.simple deleted)).graph.type n) diffList)
    (hfront : (s.restrictSpecial root (.simple deleted)).graph.value? n list = some front)
    (htail : (s.restrictSpecial root (.simple deleted)).graph.value? n last = some front)
    (hapart : ¬ Precedes deleted s.graph root front n) :
    (s.restrictSpecial root (.simple deleted)).graph.edges front = [] := by
  obtain ⟨p, h, heq⟩ := exists_empties_restrictSpecial hs hdiff hlist hlast root deleted
  rw [heq, invalidate, mapGraph] at hn htype hfront htail ⊢
  simp only [Graph.Below, Graph.value?, Graph.edges_invalidate] at hn hfront htail ⊢
  rw [Graph.type_invalidate, h.type_eq] at htype
  have hseen := h.proceeds.mem_seen_of_below hn
  have hempty := (h.empty hseen htype (.inl (Edges.mem_of_target? hfront))
    (.inl (Edges.mem_of_target? htail))).resolve_right hapart
  exact List.eq_nil_iff_forall_not_mem.2 fun e he => hempty e (.inl he)

end ClosedLists

/-- A grammar with the type `a` for difference lists. -/
def listGrammar : Grammar :=
  { Sample.grammar [] [] with
    special := { (default : SpecialFeatures) with list := some 2, last := some 3 }
    diffList := some (.of 1) }

theorem sound_listGrammar : listGrammar.Sound := { Sample.sound_grammar_nil with }

/-- A closed list whose front leads back to it. -/
def coiled : Session := Sample.session listGrammar
  [(.top, [⟨0, 1⟩]), (.of 1, [⟨2, 2⟩, ⟨3, 2⟩]), (.top, [⟨0, 1⟩])]

open Agenda in
theorem edges_front_eq_nil_coiled : coiled.Sound ∧
    (⟨0, 1⟩ : Edge) ∈ coiled.graph.edges 2 ∧
    (coiled.restrictSpecial 0 (.simple .empty)).graph.Below 0 1 ∧
    coiled.hierarchy.Le ((coiled.restrictSpecial 0 (.simple .empty)).graph.type 1) (.of 1) ∧
    (coiled.restrictSpecial 0 (.simple .empty)).graph.value? 1 2 = some 2 ∧
    (coiled.restrictSpecial 0 (.simple .empty)).graph.value? 1 3 = some 2 ∧
    ¬ Precedes .empty coiled.graph 0 2 1 ∧
    (coiled.restrictSpecial 0 (.simple .empty)).graph.edges 2 = [] := by
  have hs : coiled.Sound := (Sample.sound_session sound_listGrammar (by decide)).1
  have hsecond : ((1 : NodeId), RestrictCursor.open) ∉
      ((Pruning.start coiled).come (.simple .empty) 0 .open).seen :=
    not_mem_seen_come (by decide) Std.HashSet.not_mem_empty
  have hthird : ((2 : NodeId), RestrictCursor.open) ∉
      (((Pruning.start coiled).come (.simple .empty) 0 .open).come (.simple .empty) 1 .open).seen :=
    not_mem_seen_come (by decide) (not_mem_seen_come (by decide) Std.HashSet.not_mem_empty)
  have hagain : ((2 : NodeId), RestrictCursor.open) ∈
      ((((Pruning.start coiled).come (.simple .empty) 0 .open).come (.simple .empty) 1 .open).come
        (.simple .empty) 2 .open).seen := (mem_seen_come _).2 (.inl rfl)
  have hrun : Leads (specialTurn ⟨coiled.grammar, coiled.graph.committedArrivals 0, false⟩
      (.simple .empty)) (.start coiled) [.enter 0 .open 0] _ _ :=
    leads_of_next (specialTurn_new 0 Std.HashSet.not_mem_empty) (leads_of_next rfl
      (.cons (leads_of_next (specialTurn_new 0 hsecond) (leads_of_next rfl
        (.cons (leads_of_next (specialTurn_new 0 hthird) (leads_of_next rfl (leads_nil _)))
          (leads_of_next rfl (.cons (leads_of_next (specialTurn_seen 0 hagain) (leads_nil _))
            (leads_of_next rfl (leads_nil _)))))))
        (leads_of_next rfl (leads_nil _))))
  have hafter : (⟨0, 1⟩ : Edge) ∈ (coiled.restrictSpecial 0 (.simple .empty)).graph.edges 0 ∧
      (coiled.restrictSpecial 0 (.simple .empty)).graph.type 1 = .of 1 ∧
      (coiled.restrictSpecial 0 (.simple .empty)).graph.value? 1 2 = some 2 ∧
      (coiled.restrictSpecial 0 (.simple .empty)).graph.value? 1 3 = some 2 := by
    rw [restrictSpecial_of_leads hrun (by decide)]
    decide +kernel
  obtain ⟨hedge, htype, hfront, htail⟩ := hafter
  have hbelow : (coiled.restrictSpecial 0 (.simple .empty)).graph.Below 0 1 :=
    .single ⟨⟨0, 1⟩, hedge, rfl⟩
  have hle : coiled.hierarchy.Le ((coiled.restrictSpecial 0 (.simple .empty)).graph.type 1)
      (.of 1) := htype ▸ Hierarchy.le_refl
  have hapart : ¬ Precedes .empty coiled.graph 0 2 1 := fun h => by
    have hstay : ∀ {m}, Way .empty coiled.graph 1 0 m → m = 0 ∨ m = 1 := fun hm => by
      induction hm with
      | refl => exact .inl rfl
      | tail _ hstep ih =>
        obtain ⟨hne, e, he, -, rfl⟩ := hstep
        obtain rfl := ih.resolve_right hne
        obtain rfl : e = ⟨0, 1⟩ := List.mem_singleton.1 he
        exact .inr rfl
    exact absurd (hstay h.reach) (by decide)
  exact ⟨hs, by decide, hbelow, hle, hfront, htail, hapart,
    edges_front_eq_nil hs rfl rfl rfl .empty hbelow hle hfront htail hapart⟩

/-- A node that leads to the front of a closed list and, behind that, to the list; the front leads
to the list, too. -/
def threaded : Session := Sample.session listGrammar
  [(.top, [⟨0, 1⟩, ⟨1, 2⟩]), (.top, [⟨0, 2⟩]), (.of 1, [⟨2, 1⟩, ⟨3, 1⟩])]

open Agenda in
/-- A front that the walk goes through when it comes to the list keeps its edges. -/
theorem not_edges_front_eq_nil : ¬ ∀ (s : Session) (diffList : TypeId) (list last : FeatureId)
    (deleted : FeatureSet) (root n front : NodeId), s.Sound → root < s.graph.size →
    s.grammar.diffList = some diffList → s.grammar.special.list = some list →
    s.grammar.special.last = some last →
    (s.restrictSpecial root (.simple deleted)).graph.Below root n →
    s.hierarchy.Le ((s.restrictSpecial root (.simple deleted)).graph.type n) diffList →
    (s.restrictSpecial root (.simple deleted)).graph.value? n list = some front →
    (s.restrictSpecial root (.simple deleted)).graph.value? n last = some front →
    (s.restrictSpecial root (.simple deleted)).graph.edges front = [] := by
  intro hall
  have hs : threaded.Sound := (Sample.sound_session sound_listGrammar (by decide)).1
  have hsecond : ((1 : NodeId), RestrictCursor.open) ∉
      ((Pruning.start threaded).come (.simple .empty) 0 .open).seen :=
    not_mem_seen_come (by decide) Std.HashSet.not_mem_empty
  have hthird : ((2 : NodeId), RestrictCursor.open) ∉
      (((Pruning.start threaded).come (.simple .empty) 0 .open).come
        (.simple .empty) 1 .open).seen :=
    not_mem_seen_come (by decide) (not_mem_seen_come (by decide) Std.HashSet.not_mem_empty)
  have hfrontAgain : ((1 : NodeId), RestrictCursor.open) ∈
      ((((Pruning.start threaded).come (.simple .empty) 0 .open).come (.simple .empty) 1 .open).come
        (.simple .empty) 2 .open).seen :=
    (mem_seen_come _).2 (.inr ((mem_seen_come _).2 (.inl rfl)))
  have hlistAgain : ((2 : NodeId), RestrictCursor.open) ∈
      ((((Pruning.start threaded).come (.simple .empty) 0 .open).come (.simple .empty) 1 .open).come
        (.simple .empty) 2 .open).seen := (mem_seen_come _).2 (.inl rfl)
  have hrun : Leads (specialTurn ⟨threaded.grammar, threaded.graph.committedArrivals 0, false⟩
      (.simple .empty)) (.start threaded) [.enter 0 .open 0] _ _ :=
    leads_of_next (specialTurn_new 0 Std.HashSet.not_mem_empty) (leads_of_next rfl
      (.cons (leads_of_next (specialTurn_new 0 hsecond) (leads_of_next rfl
        (.cons (leads_of_next (specialTurn_new 0 hthird) (leads_of_next rfl
            (.cons (leads_of_next (specialTurn_seen 0 hfrontAgain) (leads_nil _)) (leads_of_next rfl
              (.cons (leads_of_next (specialTurn_seen 0 hfrontAgain) (leads_nil _))
                (leads_of_next rfl (leads_nil _)))))))
          (leads_of_next rfl (leads_nil _)))))
        (leads_of_next rfl (.cons (leads_of_next (specialTurn_seen 0 hlistAgain) (leads_nil _))
          (leads_of_next rfl (leads_nil _))))))
  have hafter : (⟨1, 2⟩ : Edge) ∈ (threaded.restrictSpecial 0 (.simple .empty)).graph.edges 0 ∧
      (threaded.restrictSpecial 0 (.simple .empty)).graph.type 2 = .of 1 ∧
      (threaded.restrictSpecial 0 (.simple .empty)).graph.value? 2 2 = some 1 ∧
      (threaded.restrictSpecial 0 (.simple .empty)).graph.value? 2 3 = some 1 ∧
      (threaded.restrictSpecial 0 (.simple .empty)).graph.edges 1 = [⟨0, 2⟩] := by
    rw [restrictSpecial_of_leads hrun (by decide)]
    decide +kernel
  obtain ⟨hedge, htype, hfront, htail, hkept⟩ := hafter
  have hempty := hall threaded (.of 1) 2 3 .empty 0 2 1 hs (by decide) rfl rfl rfl
    (.single ⟨⟨1, 2⟩, hedge, rfl⟩) (htype ▸ Hierarchy.le_refl) hfront htail
  rw [hkept] at hempty
  cases hempty

end Session

end FeatureLogic
