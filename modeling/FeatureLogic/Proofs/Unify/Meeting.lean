import FeatureLogic.Proofs.Meet
import FeatureLogic.Proofs.Unify.Outcome

/-!
Unification meets structures. Where no prototype has features, the classes of two operands are the
meet of the structures that had come about below them (`Session.meet_of_done`), those have no bound
when types clash (`Session.not_bound_of_halted`), and what has no node in common with them stays as
it was (`Session.same_of_done`).
-/

open Relation

namespace FeatureLogic

/-! ## Classes come together -/

/-- A class with an impossible type has taken in no other one. -/
theorem UnifyStep.rep_eq_of_bottom {g : Grammar} {W W' : Web} {task : UnifyTask}
    {tasks : List UnifyTask} (hs : UnifyStep g W task W' tasks) {n m : NodeId}
    (htype : W'.type (W'.rep n) = .bottom) (heq : W'.rep m = W'.rep n) : W.rep m = W.rep n := by
  cases hs with
  | @absorb _ left right survivor absorbed type _ hreps hne htype' hbottom hcovered hunion htasks =>
    have hsurvivor : W'.rep n ≠ survivor := by
      intro hn
      rw [hn, hunion.type_self] at htype
      exact hbottom htype
    have hkept : ∀ {k}, W'.rep k ≠ survivor → W'.rep k = W.rep k := fun hk =>
      hunion.rep_of_ne fun habsorbed => hk (hunion.rep_of_mem (.inr habsorbed))
    exact (hkept (heq ▸ hsurvivor)).symm.trans (heq.trans (hkept hsurvivor))
  | complete hne htype' hbottom hproto hmissed himport => rwa [himport.rep_eq] at heq
  | gained hnone hgain => rwa [hgain.rep_eq] at heq
  | met | merged | shared | resume => exact heq

namespace Web

/-- What classes were before they came together, since the web was `W₀`: one class stays one class,
and a class with an impossible type was there before. -/
structure Gathered (W₀ W : Web) : Prop where
  size_le : W₀.size ≤ W.size
  rep_congr : ∀ {x y}, W₀.rep x = W₀.rep y → W.rep x = W.rep y
  rep_self : ∀ {n}, W.rep n = n → W₀.rep n = n
  alone : ∀ {n : Nat}, n < W₀.size → W.type (W.rep n) = .bottom →
    W₀.type (W₀.rep n) = .bottom ∧ ∀ {m}, W.rep m = W.rep n → W₀.rep m = W₀.rep n

theorem gathered_start (W : Web) (S : Shape) : Gathered W (W.withShape S) :=
  ⟨Nat.le_refl _, id, id, fun _ htype => ⟨htype, id⟩⟩

theorem Gathered.step {g : Grammar} {W₀ W W' : Web} {task : UnifyTask} {tasks : List UnifyTask}
    (h : Gathered W₀ W) (hW : W.Sound) (hs : UnifyStep g W task W' tasks) : Gathered W₀ W' where
  size_le := Nat.le_trans h.size_le hs.grows.size_le
  rep_congr heq := hs.rep_congr (h.rep_congr heq)
  rep_self hn := h.rep_self (hs.rep_self hW hn)
  alone {n} hn htype := by
    have hbottom : W.type (W.rep n) = .bottom := by
      by_contra hne
      exact hs.type_ne_bottom hW (Nat.lt_of_lt_of_le hn h.size_le) hne htype
    obtain ⟨htype₀, halone⟩ := h.alone hn hbottom
    exact ⟨htype₀, fun heq => halone (hs.rep_eq_of_bottom htype heq)⟩

/-! ## The region -/

section Region

variable {W₀ W : Web} {a b : NodeId} {n : Nat}

/-- Where nothing comes in, all of the region is below the operands. -/
theorem Region.below (hn : Region W₀ a b W n) (hsize : W.size = W₀.size) :
    W₀.view.Below {W₀.rep a, W₀.rep b} (W₀.rep n) := by
  rcases hn with ⟨-, hreach | hreach⟩ | ⟨hle, hlt⟩
  · exact ⟨_, Set.mem_insert .., hreach⟩
  · exact ⟨_, Set.mem_insert_of_mem _ rfl, hreach⟩
  · exact absurd (hsize ▸ hlt) (Nat.not_lt.2 hle)

theorem region_of_below (hlt : n < W₀.size)
    (hn : W₀.view.Below {W₀.rep a, W₀.rep b} (W₀.rep n)) : Region W₀ a b W n := by
  obtain ⟨c, rfl | rfl, hreach⟩ := hn
  · exact .inl ⟨hlt, .inl hreach⟩
  · exact .inl ⟨hlt, .inr hreach⟩

end Region

/-! ## What stays as it was -/

/-- The node is as it was in the web `W₀`. -/
structure Untouched (W₀ W : Web) (n : NodeId) : Prop where
  rep_eq : W.rep n = W₀.rep n
  type_eq : W.type n = W₀.type n
  edge_eq : W.edge? n = W₀.edge? n

/-- A step touches nodes of its region only. -/
theorem Closed.untouched {g : Grammar} {W₀ W W' : Web} {a b : NodeId} {task : UnifyTask}
    {tasks waiting : List UnifyTask} (h : Closed W₀ a b W (task :: waiting))
    (hs : UnifyStep g W task W' tasks) {n : Nat} (hn : n < W.size) (hout : ¬ Region W₀ a b W n)
    (hrep : ¬ Region W₀ a b W (W.rep n)) : Untouched W W' n := by
  have hnames : ∀ {m}, task.Names m → Region W₀ a b W (W.rep m) :=
    fun hm => h.rep (h.task (List.mem_cons_self ..) hm)
  have hne : ∀ {m}, Region W₀ a b W m → n ≠ m := by
    rintro m hm rfl
    exact hout hm
  cases hs with
  | @absorb _ left right survivor absorbed type _ hreps hne' htype hbottom hcovered hunion htasks =>
    obtain ⟨hsurvivor, habsorbed⟩ := sides (P := Region W₀ a b W) hreps (hnames (.inl rfl))
      (hnames (.inr rfl))
    refine ⟨hunion.rep_of_ne ?_, hunion.type_eq (hne hsurvivor) (hne habsorbed),
      by rw [hunion.edge_eq]⟩
    intro heq
    exact hrep (heq ▸ habsorbed)
  | complete hne' htype hbottom hproto hmissed himport =>
    exact ⟨by rw [himport.rep_eq], himport.type_eq hn (hne (hnames (.inl rfl))), himport.edge_eq hn⟩
  | gained hnone hgain =>
    refine ⟨by rw [hgain.rep_eq], by rw [hgain.type_eq], funext fun f => ?_⟩
    rw [hgain.edge_eq, if_neg]
    rintro ⟨heq, -⟩
    exact hne (hnames (.inl rfl)) heq.symm
  | met | merged | shared | resume => exact ⟨rfl, rfl, rfl⟩

/-- What is not of the region of a unification stays as it was all along. -/
def Leaves (W₀ : Web) (a b : NodeId) (W : Web) : Prop :=
  ∀ ⦃n : Nat⦄, n < W₀.size → ¬ Region W₀ a b W₀ n → Untouched W₀ W n

theorem Leaves.step {g : Grammar} {W₀ W W' : Web} {a b : NodeId} {task : UnifyTask}
    {tasks waiting : List UnifyTask} (hl : Leaves W₀ a b W) (hW₀ : W₀.Sound)
    (h : Closed W₀ a b W (task :: waiting)) (hs : UnifyStep g W task W' tasks) :
    Leaves W₀ a b W' := by
  intro n hn hout
  have hkept := hl hn hout
  have hrep : ¬ Region W₀ a b W₀ (W₀.rep n) := by
    intro hregion
    have hreach := hregion.start.2
    rw [hW₀.rep_rep] at hreach
    exact hout (.inl ⟨hn, hreach⟩)
  have hstep := h.untouched hs (Nat.lt_of_lt_of_le hn h.size_le) (mt (·.old hn) hout)
    (hkept.rep_eq ▸ mt (·.old (hW₀.rep_lt hn)) hrep)
  exact ⟨hstep.rep_eq.trans hkept.rep_eq, hstep.type_eq.trans hkept.type_eq,
    hstep.edge_eq.trans hkept.edge_eq⟩

end Web

namespace Session

section Meeting

variable {s s₁ : Session} (hs : s.Sound) (he : s.graph.Entangled) {a b : Nat}
  (ha : a < s.graph.size) (hb : b < s.graph.size) {budget : Nat}
include hs he ha hb

/-- What has no node in common with the operands has the structure that it had, and its nodes stand
for themselves still. -/
theorem same_of_done (hrun : Agenda.run unifyTurn budget s [.pair a b] = .done s₁) {x : Nat}
    (hx : x < s.graph.size) (hself : s.graph.web.rep x = x)
    (hapart : s.graph.web.view.ApartFrom {s.graph.web.rep a, s.graph.web.rep b} x) :
    s.graph.web.view.Same x s₁.graph.web.view ∧
      ∀ {n}, s.graph.web.view.Reach x n → s₁.graph.web.rep n = n := by
  have hW := he.web_sound
  obtain ⟨-, S, -, -, hleaves⟩ := invariant_of_done hs he ha hb
    (fun W tasks => Web.Closed s.graph.web a b W tasks ∧ Web.Leaves s.graph.web a b W)
    (fun hW' _ ⟨h, hl⟩ hstep => ⟨h.step hW' hstep, hl.step hW h hstep⟩)
    ⟨(Web.closed_start hW ha hb).withShape _, fun _ _ _ => ⟨rfl, rfl, rfl⟩⟩ hrun
  have hbelow : ∀ {n}, s.graph.web.view.Reach x n → s.graph.web.rep n = n ∧
      Web.Untouched s.graph.web s₁.graph.web n := by
    intro n hn
    obtain ⟨hlt, hrep⟩ := hW.reach_lt hx (hself.symm ▸ hn)
    have huntouched := hleaves hlt fun hregion => hapart hn (hrep ▸ hregion.below rfl)
    exact ⟨hrep, huntouched.rep_eq, huntouched.type_eq, huntouched.edge_eq⟩
  have hrep : ∀ {n}, s.graph.web.view.Reach x n → s₁.graph.web.rep n = n := fun hn =>
    (hbelow hn).2.rep_eq.trans (hbelow hn).1
  refine ⟨fun n hn => ⟨(hbelow hn).2.type_eq, funext fun f => ?_⟩, hrep⟩
  show (s₁.graph.web.edge? n f).map s₁.graph.web.rep = (s.graph.web.edge? n f).map s.graph.web.rep
  rw [(hbelow hn).2.edge_eq]
  refine Option.map_congr fun m hm => ?_
  have hvalue : s.graph.web.view.value? n f = some (s.graph.web.rep m) := Option.map_eq_some_iff.2
    ⟨m, hm, rfl⟩
  exact (rep_rep_of_done hs he ha hb hrun m).symm.trans (hrep (hn.value hvalue))

/-- The classes at the end have come together from those at the start. -/
theorem gathered_of_done (hrun : Agenda.run unifyTurn budget s [.pair a b] = .done s₁) :
    Web.Gathered s.graph.web s₁.graph.web := by
  obtain ⟨-, S, -, h⟩ := invariant_of_done hs he ha hb (fun W _ => Web.Gathered s.graph.web W)
    (fun hW _ h hstep => h.step hW hstep) (Web.gathered_start ..) hrun
  exact ⟨h.size_le, h.rep_congr, h.rep_self, h.alone⟩

omit hs in
/-- A map to a bound of the operands is one for their unification. -/
theorem guided_of_bound {T : Shape} {y : NodeId} {κ : NodeId → NodeId}
    (hκ : s.graph.web.view.Bound s.hierarchy {s.graph.web.rep a, s.graph.web.rep b} T y κ) :
    Web.Guided s.hierarchy s.graph.web a b T y (κ ∘ s.graph.web.rep)
      (s.graph.web.withShape s.graph.web.settled) [.pair a b] := by
  have hleft := Set.mem_insert (s.graph.web.rep a) {s.graph.web.rep b}
  have hright : s.graph.web.rep b ∈ ({s.graph.web.rep a, s.graph.web.rep b} : Set NodeId) :=
    Set.mem_insert_of_mem _ rfl
  exact (Web.guided_start he.web_sound ha hb (hκ.maps hleft) (hκ.maps hright) (hκ.root hleft)
    ((hκ.root hleft).trans (hκ.root hright).symm)).withShape _

section Unfeatured

variable (hproto : ∀ t, s.grammar.featuredPrototype? t = none)
include hproto

/-- What stands for a class of the result was below an operand. -/
theorem below_of_reach_done (hrun : Agenda.run unifyTurn budget s [.pair a b] = .done s₁)
    {n : NodeId} (hn : s₁.graph.web.view.Reach (s₁.graph.web.rep a) n) :
    s.graph.web.view.Below {s.graph.web.rep a, s.graph.web.rep b} n ∧ s₁.graph.web.rep n = n := by
  obtain ⟨hu, S, hS, hclosed, hsize⟩ := invariant_of_done hs he ha hb
    (fun W tasks => Web.Closed s.graph.web a b W tasks ∧ W.size = s.graph.web.size)
    (fun hW _ ⟨h, hsize⟩ hstep =>
      ⟨h.step hW hstep, (hstep.size_eq_of_unfeatured hproto).trans hsize⟩)
    ⟨(Web.closed_start he.web_sound ha hb).withShape _, rfl⟩ hrun
  obtain ⟨hregion, hself⟩ :=
    hclosed.of_reach (hu.graph.web_sound.withShape hS.value_lt) hclosed.left hn
  have hbelow := hregion.below hsize
  rw [(gathered_of_done hs he ha hb hrun).rep_self hself] at hbelow
  exact ⟨hbelow, hself⟩

/-- The classes at the end are the meet of the structures of the operands. -/
theorem meet_of_done (hrun : Agenda.run unifyTurn budget s [.pair a b] = .done s₁) :
    s.graph.web.view.Meet s.hierarchy {s.graph.web.rep a, s.graph.web.rep b} s₁.graph.web.view
      (s₁.graph.web.rep a) s₁.graph.web.rep := by
  have hW := he.web_sound
  have hbelow : ∀ {n}, s.graph.web.view.Below {s.graph.web.rep a, s.graph.web.rep b} n →
      n < s.graph.size ∧ s.graph.web.rep n = n := by
    rintro n ⟨c, rfl | rfl, hn⟩
    · exact hW.reach_lt ha hn
    · exact hW.reach_lt hb hn
  refine ⟨⟨?_, ?_, fun {n} hn htype => ?_⟩, 
    fun hm => ⟨_, below_of_reach_done hs he ha hb hproto hrun hm⟩, fun {T y κ} hκ => ?_⟩
  · rintro c (rfl | rfl)
    · exact rep_rep_of_done hs he ha hb hrun a
    · exact (rep_rep_of_done hs he ha hb hrun b).trans (rep_of_done hs he ha hb hrun).symm
  · rintro c (rfl | rfl)
    · exact maps_of_done hs he ha hb hrun ha
    · exact maps_of_done hs he ha hb hrun hb
  · obtain ⟨hlt, hself⟩ := hbelow hn
    obtain ⟨hbottom, halone⟩ := (gathered_of_done hs he ha hb hrun).alone hlt htype
    rw [hself] at hbottom halone
    refine ⟨hbottom, fun hm heq => ?_⟩
    rw [← halone heq, (hbelow hm).2]
  · -- any other bound guides the whole walk
    obtain ⟨hu, S, hS, h⟩ := invariant_of_done hs he ha hb
      (fun W tasks => Web.Guided s.hierarchy s.graph.web a b T y (κ ∘ s.graph.web.rep) W tasks)
      (fun hW _ h hstep => h.step_of_size_eq hs.grammar hW hstep
        (hstep.size_eq_of_unfeatured hproto))
      (guided_of_bound he ha hb hκ) hrun
    refine ⟨_, h.maps (hu.graph.web_sound.withShape hS.value_lt), fun {n} hn => ?_⟩
    obtain ⟨hlt, hself⟩ := hbelow hn
    exact (h.rep (Web.region_of_below hlt (hself.symm ▸ hn))).trans (congrArg κ hself)

/-- Where types clash, the structures of the operands have no bound. -/
theorem not_bound_of_halted {waiting : List UnifyTask}
    (hrun : Agenda.run unifyTurn budget s [.pair a b] = .halted s₁ () waiting) {T : Shape}
    {y : NodeId} {κ : NodeId → NodeId} :
    ¬ s.graph.web.view.Bound s.hierarchy {s.graph.web.rep a, s.graph.web.rep b} T y κ := by
  intro hκ
  obtain ⟨W, left, right, hW, ⟨h, hsize, hgathered⟩, hne, hbottom⟩ := invariant_of_halted hs he ha
    hb (fun W tasks => Web.Guided s.hierarchy s.graph.web a b T y (κ ∘ s.graph.web.rep) W tasks ∧
      W.size = s.graph.web.size ∧ Web.Gathered s.graph.web W)
    (fun hW _ ⟨h, hsize, hgathered⟩ hstep =>
      have hsize' := hstep.size_eq_of_unfeatured hproto
      ⟨h.step_of_size_eq hs.grammar hW hstep hsize', hsize'.trans hsize, hgathered.step hW hstep⟩)
    ⟨guided_of_bound he ha hb hκ, rfl, Web.gathered_start ..⟩ hrun
  obtain ⟨heq, hleft, hle⟩ := h.le_glb hs.grammar hW
  have hright := h.closed.rep (h.closed.task (List.mem_cons_self ..) (.inr rfl))
  rw [hbottom, Hierarchy.le_bottom_iff] at hle
  -- the two classes have one image of an impossible type, so they were one class to begin with
  have hsame := (hκ.alone (hleft.below hsize) hle).2 (hright.below hsize) heq.symm
  have hclass := hgathered.rep_congr hsame
  rw [hW.rep_rep, hW.rep_rep] at hclass
  exact hne hclass.symm

end Unfeatured

end Meeting

end Session

end FeatureLogic
