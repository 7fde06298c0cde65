import FeatureLogic.Session.Equal
import FeatureLogic.Proofs.Sample
import FeatureLogic.Proofs.Session.Subsumption

/-!
Equality. The walk goes down two structures in step and notes at both nodes of a pair the first of
them. One note serves a node in both of its roles, so the walk tells equal structures from others
where no node is met in two roles, unless it is met with itself alone (`Session.equal_iff`).
-/

open Relation

namespace FeatureLogic

namespace Shape

/-- The nodes to which one path leads from `a` and from `b`. -/
def Paired (S : Shape) (a b x y : NodeId) : Prop :=
  ReflTransGen (fun p q : NodeId × NodeId =>
    ∃ f, S.value? p.1 f = some q.1 ∧ S.value? p.2 f = some q.2) (a, b) (x, y)

/-- A node that is met on both sides is met with itself alone. -/
def Unmixed (S : Shape) (a b : NodeId) : Prop :=
  ∀ ⦃x y z⦄, S.Paired a b x y → S.Paired a b y z → x = y ∧ y = z

section Paired

variable {S : Shape} {a b x y v w : NodeId} {f : FeatureId}

theorem Paired.refl : S.Paired a b a b := ReflTransGen.refl

theorem Paired.value (h : S.Paired a b x y) (hv : S.value? x f = some v)
    (hw : S.value? y f = some w) : S.Paired a b v w :=
  ReflTransGen.tail h ⟨f, hv, hw⟩

/-- What holds of the roots and goes down with equal features holds of all pairs. -/
theorem Paired.induct {motive : NodeId → NodeId → Prop} (h : S.Paired a b x y)
    (root : motive a b)
    (step : ∀ {x y f v w}, S.Paired a b x y → motive x y → S.value? x f = some v →
      S.value? y f = some w → motive v w) : motive x y := by
  have hall : ∀ p, ReflTransGen (fun p q : NodeId × NodeId =>
      ∃ f, S.value? p.1 f = some q.1 ∧ S.value? p.2 f = some q.2) (a, b) p → motive p.1 p.2 := by
    intro p hp
    induction hp with
    | refl => exact root
    | tail hp hstep ih =>
      obtain ⟨f, hv, hw⟩ := hstep
      exact step hp ih hv hw
  exact hall (x, y) h

theorem Paired.reach (h : S.Paired a b x y) : S.Reach a x ∧ S.Reach b y := by
  refine h.induct (motive := fun x y => S.Reach a x ∧ S.Reach b y)
    ⟨ReflTransGen.refl, ReflTransGen.refl⟩ ?_
  exact fun _ ih hv hw => ⟨ih.1.value hv, ih.2.value hw⟩

/-- Structures that have no node in common are met side by side. -/
theorem unmixed_of_apart (h : ∀ n, S.Reach a n → ¬ S.Reach b n) : S.Unmixed a b :=
  fun _ y _ hxy hyz => absurd hxy.reach.2 (h y hyz.reach.1)

/-- Isomorphic structures are paired along the isomorphism. -/
theorem Paired.eq_map {μ : NodeId → NodeId} (hroot : μ a = b)
    (hμ : ∀ n, S.Reach a n → ∀ f, S.value? (μ n) f = (S.value? n f).map μ)
    (h : S.Paired a b x y) : y = μ x := by
  refine (h.induct (motive := fun x y => S.Reach a x ∧ y = μ x) ⟨ReflTransGen.refl, hroot.symm⟩
    ?_).2
  rintro x y f v w - ⟨hx, rfl⟩ hv hw
  rw [hμ x hx, hv] at hw
  exact ⟨hx.value hv, (Option.some.inj hw).symm⟩

end Paired

end Shape

/-- Two edge lists that have values for the same features have the same features in order. -/
theorem Edges.features_eq {first second : List Edge} (h : Sorted first) (h' : Sorted second)
    (hsome : ∀ f, (target? f first).isSome = (target? f second).isSome) :
    first.map Edge.feature = second.map Edge.feature := by
  have hmem : ∀ {edges : List Edge}, Sorted edges → ∀ f,
      f ∈ edges.map Edge.feature ↔ (target? f edges).isSome := by
    intro edges hsorted f
    rw [List.mem_map, Option.isSome_iff_exists]
    constructor
    · rintro ⟨e, he, rfl⟩
      exact ⟨e.target, (target?_eq_some_iff hsorted).2 he⟩
    · rintro ⟨m, hm⟩
      exact ⟨_, (target?_eq_some_iff hsorted).1 hm, rfl⟩
  refine List.Pairwise.eq_of_mem_iff (r := (· < ·)) (List.pairwise_map.2 h)
    (List.pairwise_map.2 h') fun f => ?_
  rw [hmem h, hmem h', hsome]

namespace Session

/-! ## Turns -/

/-- The values of two edge lists side by side. -/
def valuePairs (first second : List Edge) : List (NodeId × NodeId) :=
  (first.zip second).map fun (d, e) => (d.target, e.target)

theorem length_valuePairs_le (first second : List Edge) :
    (valuePairs first second).length ≤ first.length := by
  simp [valuePairs]

theorem eq_of_mem_valuePairs_self {edges : List Edge} {v w : NodeId}
    (h : (v, w) ∈ valuePairs edges edges) : v = w := by
  induction edges with
  | nil => cases h
  | cons e rest ih =>
    rcases List.mem_cons.1 h with heq | h
    · cases heq
      rfl
    · exact ih h

theorem mem_valuePairs_swap {first second : List Edge} {v w : NodeId}
    (h : (v, w) ∈ valuePairs first second) : (w, v) ∈ valuePairs second first := by
  obtain ⟨⟨d, e⟩, hmem, heq⟩ := List.mem_map.1 h
  cases heq
  rw [valuePairs, ← List.zip_swap, List.map_map]
  exact List.mem_map.2 ⟨(d, e), hmem, rfl⟩

theorem exists_valuePair {first second : List Edge}
    (h : first.map Edge.feature = second.map Edge.feature) {d : Edge} (hd : d ∈ first) :
    ∃ e ∈ second, e.feature = d.feature ∧ (d.target, e.target) ∈ valuePairs first second := by
  induction first generalizing second with
  | nil => cases hd
  | cons d' first ih =>
    cases second with
    | nil => cases h
    | cons e' second =>
      obtain ⟨hhead, htail⟩ := List.cons.inj h
      rcases List.mem_cons.1 hd with rfl | hd
      · exact ⟨e', by simp, hhead.symm, by simp [valuePairs]⟩
      · obtain ⟨e, he, hfeature, hmem⟩ := ih htail hd
        exact ⟨e, List.mem_cons_of_mem _ he, hfeature, by simp [valuePairs] at hmem ⊢; exact .inr hmem⟩

theorem of_mem_valuePairs {first second : List Edge}
    (h : first.map Edge.feature = second.map Edge.feature) {v w : NodeId}
    (hp : (v, w) ∈ valuePairs first second) :
    ∃ d ∈ first, ∃ e ∈ second, e.feature = d.feature ∧ d.target = v ∧ e.target = w := by
  induction first generalizing second with
  | nil => cases hp
  | cons d first ih =>
    cases second with
    | nil => cases hp
    | cons e second =>
      obtain ⟨hhead, htail⟩ := List.cons.inj h
      rcases List.mem_cons.1 hp with heq | hp
      · cases heq
        exact ⟨d, by simp, e, by simp, hhead.symm, rfl, rfl⟩
      · obtain ⟨d', hd, e', he, hrest⟩ := ih htail hp
        exact ⟨d', List.mem_cons_of_mem _ hd, e', List.mem_cons_of_mem _ he, hrest⟩

/-- The graph after two nodes have become a pair. -/
def coupled (g : Graph) (x y : NodeId) : Graph := (g.setForward y x).setForward x x

section Coupled

variable {g : Graph}

@[simp] theorem size_coupled (x y : NodeId) : (coupled g x y).size = g.size := by
  rw [coupled, Graph.setForward, Graph.size_note, Graph.setForward, Graph.size_note]

@[simp] theorem type_coupled (x y n : NodeId) : (coupled g x y).type n = g.type n := by
  rw [coupled, Graph.setForward, Graph.type_note, Graph.setForward, Graph.type_note]

@[simp] theorem edges_coupled (x y n : NodeId) : (coupled g x y).edges n = g.edges n := by
  rw [coupled, Graph.setForward, Graph.edges_note, Graph.setForward, Graph.edges_note]

theorem sound_coupled (hg : g.Sound) (x y : NodeId) : (coupled g x y).Sound := by
  have hforward : ∀ {g : Graph} (n m : NodeId), g.Sound → (g.setForward n m).Sound :=
    fun _ _ hg => hg.note fun _ => rfl
  exact hforward x x (hforward y x hg)

variable {x y : Nat} {n k : NodeId} (hx : x < g.size) (hy : y < g.size)
include hx hy

theorem forward?_coupled (n : NodeId) :
    (coupled g x y).forward? n = if x = n ∨ y = n then some x else g.forward? n := by
  have hx' : x < (g.setForward y x).size := by rwa [Graph.setForward, Graph.size_note]
  rw [coupled, Graph.forward?_setForward _ hx', Graph.forward?_setForward _ hy]
  by_cases h : x = n <;> by_cases h' : y = n <;> simp [h, h']

/-- Both nodes of the new pair have a note that names the first. -/
theorem forward?_coupled_both :
    (coupled g x y).forward? x = some x ∧ (coupled g x y).forward? y = some x := by
  simp [forward?_coupled hx hy]

/-- What had a note keeps it. -/
theorem forward?_coupled_of_some (hfx : g.forward? x = none) (hfy : g.forward? y = none)
    (h : g.forward? n = some k) : (coupled g x y).forward? n = some k := by
  rw [forward?_coupled hx hy, if_neg, h]
  rintro (rfl | rfl)
  · rw [hfx] at h
    cases h
  · rw [hfy] at h
    cases h

/-- A note is one of the new pair or an old one. -/
theorem forward?_coupled_cases (h : (coupled g x y).forward? n = some k) :
    ((n = x ∨ n = y) ∧ k = x) ∨ g.forward? n = some k := by
  rw [forward?_coupled hx hy] at h
  split at h
  · rename_i hn
    exact .inl ⟨hn.imp Eq.symm Eq.symm, (Option.some.inj h).symm⟩
  · exact .inr h

end Coupled

/-- Two nodes are met as a pair that they are, as one that they are not, or as a new one; and the
nodes of a new pair agree or differ. -/
theorem equalTurn_cases (g : Graph) (x y : NodeId) :
    (∃ m, g.forward? x = some m ∧ g.forward? y = some m ∧ equalTurn g (x, y) = .next g []) ∨
    (g.forward? x ≠ g.forward? y ∧ equalTurn g (x, y) = .halt g ()) ∨
    (g.forward? x = none ∧ g.forward? y = none ∧
      (((g.type x = g.type y ∧ (g.edges x).map Edge.feature = (g.edges y).map Edge.feature) ∧
        equalTurn g (x, y) = .next (coupled g x y) (valuePairs (g.edges x) (g.edges y))) ∨
      (¬ (g.type x = g.type y ∧ (g.edges x).map Edge.feature = (g.edges y).map Edge.feature) ∧
        equalTurn g (x, y) = .halt (coupled g x y) ()))) := by
  by_cases hnew : g.forward? x = none ∧ g.forward? y = none
  · obtain ⟨hx, hy⟩ := hnew
    refine .inr (.inr ⟨hx, hy, ?_⟩)
    simp only [equalTurn, hx, hy, Graph.setForward, Graph.edges_note, Graph.type_note]
    split
    · rename_i hsame
      exact .inl ⟨hsame, rfl⟩
    · rename_i hdiffer
      exact .inr ⟨hdiffer, rfl⟩
  have hturn : equalTurn g (x, y) =
      if g.forward? x = g.forward? y then .next g [] else .halt g () := by
    cases hx : g.forward? x <;> cases hy : g.forward? y <;> simp_all [equalTurn]
  rw [hturn]
  split
  · rename_i heq
    cases hx : g.forward? x with
    | none => exact absurd ⟨hx, heq ▸ hx⟩ hnew
    | some m => exact .inl ⟨m, rfl, heq ▸ hx, rfl⟩
  · rename_i hne
    exact .inr (.inl ⟨hne, rfl⟩)

/-- A turn that goes on meets a pair again, or makes a new one and asks for the values. -/
theorem equalTurn_next {g g' : Graph} {x y : NodeId} {tasks : List (NodeId × NodeId)}
    (h : equalTurn g (x, y) = .next g' tasks) :
    (∃ m, g.forward? x = some m ∧ g.forward? y = some m ∧ g' = g ∧ tasks = []) ∨
    (g.forward? x = none ∧ g.forward? y = none ∧ g.type x = g.type y ∧
      (g.edges x).map Edge.feature = (g.edges y).map Edge.feature ∧ g' = coupled g x y ∧
      tasks = valuePairs (g.edges x) (g.edges y)) := by
  rcases equalTurn_cases g x y with ⟨m, hx, hy, heq⟩ | ⟨-, heq⟩ |
    ⟨hx, hy, ⟨⟨htype, hfeatures⟩, heq⟩ | ⟨-, heq⟩⟩ <;> rw [heq] at h <;> cases h
  · exact .inl ⟨m, hx, hy, rfl, rfl⟩
  · exact .inr ⟨hx, hy, htype, hfeatures, rfl, rfl⟩

/-- A turn that ends the walk has met nodes that are not a pair, or that differ. -/
theorem equalTurn_halt {g g' : Graph} {x y : NodeId} (h : equalTurn g (x, y) = .halt g' ()) :
    (g.forward? x ≠ g.forward? y ∧ g' = g) ∨
    (g.forward? x = none ∧ g.forward? y = none ∧ g' = coupled g x y ∧
      ¬ (g.type x = g.type y ∧
        (g.edges x).map Edge.feature = (g.edges y).map Edge.feature)) := by
  rcases equalTurn_cases g x y with ⟨m, -, -, heq⟩ | ⟨hne, heq⟩ |
    ⟨hx, hy, ⟨-, heq⟩ | ⟨hdiffer, heq⟩⟩ <;> rw [heq] at h <;> cases h
  · exact .inl ⟨hne, rfl⟩
  · exact .inr ⟨hx, hy, rfl, hdiffer⟩

/-! ## The length of the walk -/

/-- What holds of a comparison with pairs left to meet, however edges are ordered. -/
structure Checked (g₀ g : Graph) (tasks : List (NodeId × NodeId)) : Prop where
  noted : g₀.Noted g
  within : ∀ {x y : Nat}, (x, y) ∈ tasks → x < g₀.size ∧ y < g₀.size

section Checked

variable {g₀ : Graph} (hg : g₀.EdgesLead) {a b : Nat}

theorem checked_start (ha : a < g₀.size) (hb : b < g₀.size) : Checked g₀ g₀ [(a, b)] where
  noted := .refl _
  within h := by
    cases List.mem_singleton.1 h
    exact ⟨ha, hb⟩

include hg

theorem keeps_checked : Agenda.Keeps equalTurn (Checked g₀) := by
  refine ⟨fun {g task waiting g' tasks} h ht => ?_⟩
  obtain ⟨x, y⟩ := task
  have hnoted := noted_equalTurn h.noted (x, y)
  rw [ht] at hnoted
  rcases equalTurn_next ht with ⟨-, -, -, -, rfl⟩ | ⟨-, -, -, hfeatures, -, rfl⟩
  · exact ⟨hnoted, fun hn => h.within (List.mem_cons_of_mem _ hn)⟩
  · refine ⟨hnoted, fun {n m} hn => ?_⟩
    rcases List.mem_append.1 hn with hn | hn
    · obtain ⟨d, hd, e, he, -, rfl, rfl⟩ := of_mem_valuePairs hfeatures hn
      rw [h.noted.edges_eq] at hd he
      exact ⟨hg hd, hg he⟩
    · exact h.within (List.mem_cons_of_mem _ hn)

/-- A comparison comes to every node as the first of a pair at most once with something to do. -/
theorem run_equalTurn_ne_spent (ha : a < g₀.size) (hb : b < g₀.size) (g : Graph)
    (waiting : List (NodeId × NodeId)) :
    Agenda.run equalTurn g₀.weight g₀ [(a, b)] ≠ .spent g waiting := by
  refine (keeps_checked hg).run_ne_spent_of_marks g₀.size
    (fun n => (g₀.edges n).length) (fun g n => g.forward? n = some n) ?_
    (checked_start ha hb) ?_ g waiting
  · rintro g₁ ⟨x, y⟩ rest g₂ tasks h ht
    obtain ⟨hx, hy⟩ := h.within (List.mem_cons_self ..)
    have hsize := h.noted.size_eq
    rcases equalTurn_next ht with ⟨m, -, -, rfl, rfl⟩ | ⟨hfx, hfy, -, -, rfl, rfl⟩
    · exact .inl ⟨rfl, fun n => Iff.rfl⟩
    · refine .inr ⟨x, hx, by simp [hfx], fun n => ?_, ?_⟩
      · rw [forward?_coupled (hsize ▸ hx) (hsize ▸ hy)]
        by_cases hn : n = x
        · simp [hn]
        · by_cases hn' : y = n
          · subst hn'
            simp [hn, Ne.symm hn, hfy]
          · simp [hn, hn', Ne.symm hn]
      · exact h.noted.edges_eq x ▸ length_valuePairs_le _ _
  · have := g₀.leftOver_lt_weight (fun n => (g₀.edges n).length)
      (fun n => g₀.forward? n = some n) (fun n => by omega)
    simpa using this

end Checked

/-! ## The pairs so far -/

/-- Two nodes have become a pair. -/
def Met (g : Graph) (x y : NodeId) : Prop := g.forward? x = some x ∧ g.forward? y = some x

/-- Two nodes have one type and the same features, and their values are pairs or are to be. -/
structure Agreeing (g₀ g : Graph) (tasks : List (NodeId × NodeId)) (x y : NodeId) : Prop where
  type_eq : g₀.type x = g₀.type y
  value : ∀ {f v}, g₀.value? x f = some v → ∃ w, g₀.value? y f = some w ∧
    (Met g v w ∨ (v, w) ∈ tasks)
  isSome : ∀ {f w}, g₀.value? y f = some w → (g₀.value? x f).isSome

/-- What holds of the pairs that a comparison of `a` and `b` has made, with others to be met. -/
structure Equating (g₀ : Graph) (a b : NodeId) (g : Graph) (tasks : List (NodeId × NodeId)) :
    Prop where
  sound : g.Sound
  size_eq : g.size = g₀.size
  type_eq : ∀ n, g.type n = g₀.type n
  edges_eq : ∀ n, g.edges n = g₀.edges n
  task : ∀ {x y}, (x, y) ∈ tasks → g₀.shape.Paired a b x y
  root : Met g a b ∨ (a, b) ∈ tasks
  first : ∀ {n m}, g.forward? n = some m → g.forward? m = some m
  partner : ∀ {m}, g.forward? m = some m → ∃ k, g₀.shape.Paired a b m k ∧ Met g m k ∧
    (∀ n, g.forward? n = some m → n = m ∨ n = k) ∧ Agreeing g₀ g tasks m k

section Equating

variable {g₀ g : Graph} {a b x y m : NodeId} {tasks waiting : List (NodeId × NodeId)}

theorem equating_start (hg : g₀.Sound) (hr : g₀.AtRest) (a b : NodeId) :
    Equating g₀ a b g₀ [(a, b)] where
  sound := hg
  size_eq := rfl
  type_eq _ := rfl
  edges_eq _ := rfl
  task h := by
    cases List.mem_singleton.1 h
    exact .refl
  root := .inr (List.mem_singleton.2 rfl)
  first h := by
    rw [hr.forward_eq] at h
    cases h
  partner h := by
    rw [hr.forward_eq] at h
    cases h

theorem Agreeing.mono {g' : Graph} {tasks' : List (NodeId × NodeId)}
    (h : Agreeing g₀ g tasks x y)
    (hmono : ∀ {v w}, Met g v w ∨ (v, w) ∈ tasks → Met g' v w ∨ (v, w) ∈ tasks') :
    Agreeing g₀ g' tasks' x y where
  type_eq := h.type_eq
  value hv := by
    obtain ⟨w, hw, hmet⟩ := h.value hv
    exact ⟨w, hw, hmono hmet⟩
  isSome := h.isSome

variable (h : Equating g₀ a b g tasks) (hmixed : g₀.shape.Unmixed a b)
  (hpair : g₀.shape.Paired a b x y)
include h hmixed hpair

/-- The first node of a pair has no note but that it is the first one. -/
theorem Equating.eq_of_first (hx : g.forward? x = some m) : m = x := by
  obtain ⟨k, hmk, -, honly, -⟩ := h.partner (h.first hx)
  rcases honly x hx with rfl | rfl
  · rfl
  · exact (hmixed hmk hpair).1

/-- The second node of a pair has been met as a second one. -/
theorem Equating.eq_of_second (hy : g.forward? y = some m) :
    g₀.shape.Paired a b m y ∧ Agreeing g₀ g tasks m y := by
  obtain ⟨k, hmk, -, honly, hagree⟩ := h.partner (h.first hy)
  rcases honly y hy with rfl | rfl
  · obtain rfl := (hmixed hpair hmk).2
    exact ⟨hmk, hagree⟩
  · exact ⟨hmk, hagree⟩

end Equating

section Turn

variable {g₀ g : Graph} {a b x y : NodeId} {waiting : List (NodeId × NodeId)}
  (h : Equating g₀ a b g ((x, y) :: waiting)) (hmixed : g₀.shape.Unmixed a b)
include h hmixed

theorem Equating.pop {m : NodeId} (hx : g.forward? x = some m) (hy : g.forward? y = some m) :
    Equating g₀ a b g waiting := by
  obtain rfl := h.eq_of_first hmixed (h.task (List.mem_cons_self ..)) hx
  have hdrop : ∀ {v w}, Met g v w ∨ (v, w) ∈ (m, y) :: waiting → Met g v w ∨ (v, w) ∈ waiting := by
    rintro v w (hmet | hmem)
    · exact .inl hmet
    · rcases List.mem_cons.1 hmem with heq | hmem
      · cases heq
        exact .inl ⟨hx, hy⟩
      · exact .inr hmem
  refine { h with
    task := fun ht => h.task (List.mem_cons_of_mem _ ht)
    root := hdrop h.root
    partner := fun hm => ?_ }
  obtain ⟨k, hmk, hmet, honly, hagree⟩ := h.partner hm
  exact ⟨k, hmk, hmet, honly, hagree.mono hdrop⟩

end Turn

section Push

variable {g₀ g : Graph} {a b : NodeId} {x y : Nat} {waiting : List (NodeId × NodeId)}
  (h : Equating g₀ a b g ((x, y) :: waiting)) (htype : g.type x = g.type y)
  (hfeatures : (g.edges x).map Edge.feature = (g.edges y).map Edge.feature) (hg₀ : g₀.Sound)
include h htype hfeatures hg₀

/-- The nodes of a new pair agree, since their values are to be met. -/
theorem Equating.agreeing (g' : Graph) (waiting' : List (NodeId × NodeId)) :
    Agreeing g₀ g' (valuePairs (g.edges x) (g.edges y) ++ waiting') x y := by
  refine ⟨?_, fun hv => ?_, fun hw => ?_⟩
  · rw [← h.type_eq, ← h.type_eq, htype]
  · rw [hg₀.value_eq_some_iff, ← h.edges_eq] at hv
    obtain ⟨⟨_, w⟩, he, rfl, hmem⟩ := exists_valuePair hfeatures hv
    refine ⟨w, ?_, .inr (List.mem_append_left _ hmem)⟩
    rw [hg₀.value_eq_some_iff, ← h.edges_eq]
    exact he
  · rw [hg₀.value_eq_some_iff, ← h.edges_eq] at hw
    obtain ⟨⟨_, v⟩, he, rfl, -⟩ := exists_valuePair hfeatures.symm hw
    rw [Option.isSome_iff_exists]
    refine ⟨v, ?_⟩
    rw [hg₀.value_eq_some_iff, ← h.edges_eq]
    exact he

theorem Equating.push (hxlt : x < g₀.size) (hylt : y < g₀.size) (hx : g.forward? x = none)
    (hy : g.forward? y = none) :
    Equating g₀ a b (coupled g x y) (valuePairs (g.edges x) (g.edges y) ++ waiting) := by
  rw [← h.size_eq] at hxlt hylt
  have hpair := h.task (List.mem_cons_self ..)
  have hself : Met (coupled g x y) x y := forward?_coupled_both hxlt hylt
  have hkeep : ∀ {n m}, g.forward? n = some m → (coupled g x y).forward? n = some m :=
    forward?_coupled_of_some hxlt hylt hx hy
  have hnone : ∀ {n}, g.forward? n ≠ some x := fun hn => by
    have hself := h.first hn
    rw [hx] at hself
    cases hself
  have hpush : ∀ {v w}, Met g v w ∨ (v, w) ∈ (x, y) :: waiting →
      Met (coupled g x y) v w ∨ (v, w) ∈ valuePairs (g.edges x) (g.edges y) ++ waiting := by
    rintro v w (hmet | hmem)
    · exact .inl ⟨hkeep hmet.1, hkeep hmet.2⟩
    · rcases List.mem_cons.1 hmem with heq | hmem
      · cases heq
        exact .inl hself
      · exact .inr (List.mem_append_right _ hmem)
  refine ⟨sound_coupled h.sound x y, (size_coupled x y).trans h.size_eq,
    fun n => (type_coupled x y n).trans (h.type_eq n),
    fun n => (edges_coupled x y n).trans (h.edges_eq n), fun {v w} hmem => ?_, hpush h.root,
    fun {n m} hn => ?_, fun {m} hm => ?_⟩
  · rcases List.mem_append.1 hmem with hmem | hmem
    · obtain ⟨d, hd, e, he, hfeature, rfl, rfl⟩ := of_mem_valuePairs hfeatures hmem
      rw [h.edges_eq] at hd he
      refine hpair.value (hg₀.value_eq_some_iff.2 hd) ?_
      rw [← hfeature]
      exact hg₀.value_eq_some_iff.2 he
    · exact h.task (List.mem_cons_of_mem _ hmem)
  · rcases forward?_coupled_cases hxlt hylt hn with ⟨-, rfl⟩ | hn
    · exact hself.1
    · exact hkeep (h.first hn)
  · rcases forward?_coupled_cases hxlt hylt hm with ⟨-, rfl⟩ | hmark
    · refine ⟨y, hpair, hself, fun n hn => ?_, h.agreeing htype hfeatures hg₀ _ _⟩
      rcases forward?_coupled_cases hxlt hylt hn with ⟨hmem, -⟩ | hn
      · exact hmem
      · exact absurd hn hnone
    · obtain ⟨k, hmk, hmet, honly, hold⟩ := h.partner hmark
      refine ⟨k, hmk, ⟨hkeep hmet.1, hkeep hmet.2⟩, fun n hn => ?_, hold.mono hpush⟩
      rcases forward?_coupled_cases hxlt hylt hn with ⟨-, rfl⟩ | hn
      · exact absurd hmark hnone
      · exact honly n hn

end Push

/-! ## Types along paths -/

/-- Two nodes have the same note. -/
def Joined (g : Graph) (x y : NodeId) : Prop := ∃ m, g.forward? x = some m ∧ g.forward? y = some m

/-- The two nodes are one, or have the same note, or are to be compared. -/
def Due (g : Graph) (tasks : List (NodeId × NodeId)) (v w : NodeId) : Prop :=
  v = w ∨ Joined g v w ∨ (v, w) ∈ tasks ∨ (w, v) ∈ tasks

/-- What holds of the notes of a comparison in whatever roles its nodes are met: a node agrees with
the one that its note names, and so will their values. -/
structure Tallying (g₀ : Graph) (a b : NodeId) (g : Graph) (tasks : List (NodeId × NodeId)) :
    Prop where
  size_eq : g.size = g₀.size
  type_eq : ∀ n, g.type n = g₀.type n
  edges_eq : ∀ n, g.edges n = g₀.edges n
  within : ∀ {p : Nat × Nat}, p ∈ tasks → p.1 < g₀.size ∧ p.2 < g₀.size
  root : Due g tasks a b
  type : ∀ {n k}, g.forward? n = some k → g₀.type n = g₀.type k
  features : ∀ {n k}, g.forward? n = some k →
    (g₀.edges n).map Edge.feature = (g₀.edges k).map Edge.feature
  values : ∀ {n k v w}, g.forward? n = some k →
    (v, w) ∈ valuePairs (g₀.edges n) (g₀.edges k) → Due g tasks v w

section Tallying

variable {g₀ g : Graph} {a b : NodeId} {x y m : Nat} {waiting : List (NodeId × NodeId)}

theorem tallying_start (hr : g₀.AtRest) {a b : Nat} (ha : a < g₀.size) (hb : b < g₀.size) :
    Tallying g₀ a b g₀ [(a, b)] := by
  have hnone : ∀ {n k}, g₀.forward? n ≠ some k := by
    intro n k h
    rw [hr.forward_eq] at h
    cases h
  refine ⟨rfl, fun _ => rfl, fun _ => rfl, fun h => ?_, .inr (.inr (.inl (List.mem_singleton.2 rfl))),
    fun h => absurd h hnone, fun h => absurd h hnone, fun h => absurd h hnone⟩
  rw [List.mem_singleton.1 h]
  exact ⟨ha, hb⟩

theorem Due.symm {tasks : List (NodeId × NodeId)} {v w : NodeId} (h : Due g tasks v w) :
    Due g tasks w v := by
  rcases h with rfl | ⟨m, hv, hw⟩ | h | h
  · exact .inl rfl
  · exact .inr (.inl ⟨m, hw, hv⟩)
  · exact .inr (.inr (.inr h))
  · exact .inr (.inr (.inl h))

theorem Tallying.pop (h : Tallying g₀ a b g ((x, y) :: waiting)) (hx : g.forward? x = some m)
    (hy : g.forward? y = some m) : Tallying g₀ a b g waiting := by
  have hdrop : ∀ {v w}, Due g ((x, y) :: waiting) v w → Due g waiting v w := by
    rintro v w (rfl | hjoined | hmem | hmem)
    · exact .inl rfl
    · exact .inr (.inl hjoined)
    · rcases List.mem_cons.1 hmem with heq | hmem
      · cases heq
        exact .inr (.inl ⟨m, hx, hy⟩)
      · exact .inr (.inr (.inl hmem))
    · rcases List.mem_cons.1 hmem with heq | hmem
      · cases heq
        exact .inr (.inl ⟨m, hy, hx⟩)
      · exact .inr (.inr (.inr hmem))
  exact { h with
    within := fun hmem => h.within (List.mem_cons_of_mem _ hmem)
    root := hdrop h.root
    values := fun hn hp => hdrop (h.values hn hp) }

theorem Tallying.push (h : Tallying g₀ a b g ((x, y) :: waiting)) (hg₀ : g₀.Sound)
    (hx : g.forward? x = none) (hy : g.forward? y = none) (htype : g.type x = g.type y)
    (hfeatures : (g.edges x).map Edge.feature = (g.edges y).map Edge.feature) :
    Tallying g₀ a b (coupled g x y) (valuePairs (g.edges x) (g.edges y) ++ waiting) := by
  obtain ⟨hxlt, hylt⟩ := h.within (List.mem_cons_self ..)
  rw [← h.size_eq] at hxlt hylt
  rw [h.type_eq, h.type_eq] at htype
  rw [h.edges_eq, h.edges_eq] at hfeatures ⊢
  have hkeep : ∀ {n k}, g.forward? n = some k → (coupled g x y).forward? n = some k :=
    forward?_coupled_of_some hxlt hylt hx hy
  have hself : Joined (coupled g x y) x y := ⟨x, forward?_coupled_both hxlt hylt⟩
  have hpush : ∀ {v w}, Due g ((x, y) :: waiting) v w →
      Due (coupled g x y) (valuePairs (g₀.edges x) (g₀.edges y) ++ waiting) v w := by
    have hmem : ∀ {v w}, (v, w) ∈ (x, y) :: waiting →
        Due (coupled g x y) (valuePairs (g₀.edges x) (g₀.edges y) ++ waiting) v w := by
      intro v w hmem
      rcases List.mem_cons.1 hmem with heq | hmem
      · cases heq
        exact .inr (.inl hself)
      · exact .inr (.inr (.inl (List.mem_append_right _ hmem)))
    rintro v w (rfl | ⟨k, hv, hw⟩ | hvw | hwv)
    · exact .inl rfl
    · exact .inr (.inl ⟨k, hkeep hv, hkeep hw⟩)
    · exact hmem hvw
    · exact (hmem hwv).symm
  refine ⟨(size_coupled x y).trans h.size_eq, fun n => (type_coupled x y n).trans (h.type_eq n),
    fun n => (edges_coupled x y n).trans (h.edges_eq n), fun {p} hmem => ?_, hpush h.root,
    fun hn => ?_, fun hn => ?_, fun {n k v w} hn hp => ?_⟩
  · rcases List.mem_append.1 hmem with hmem | hmem
    · obtain ⟨v, w⟩ := p
      obtain ⟨d, hd, e, he, -, rfl, rfl⟩ := of_mem_valuePairs hfeatures hmem
      exact ⟨hg₀.target_lt hd, hg₀.target_lt he⟩
    · exact h.within (List.mem_cons_of_mem _ hmem)
  · rcases forward?_coupled_cases hxlt hylt hn with ⟨rfl | rfl, rfl⟩ | hn
    · rfl
    · exact htype.symm
    · exact h.type hn
  · rcases forward?_coupled_cases hxlt hylt hn with ⟨rfl | rfl, rfl⟩ | hn
    · rfl
    · exact hfeatures.symm
    · exact h.features hn
  · rcases forward?_coupled_cases hxlt hylt hn with ⟨rfl | rfl, rfl⟩ | hn
    · exact .inl (eq_of_mem_valuePairs_self hp)
    · exact .inr (.inr (.inr (List.mem_append_left _ (mem_valuePairs_swap hp))))
    · exact hpush (h.values hn hp)

theorem keeps_tallying (hg₀ : g₀.Sound) : Agenda.Keeps equalTurn (Tallying g₀ a b) := by
  refine ⟨fun {g task waiting g' tasks} h ht => ?_⟩
  obtain ⟨x, y⟩ := task
  rcases equalTurn_next ht with ⟨m, hx, hy, rfl, rfl⟩ | ⟨hx, hy, htype, hfeatures, rfl, rfl⟩
  · exact h.pop hx hy
  · exact h.push hg₀ hx hy htype hfeatures

end Tallying

/-! ## The whole walk -/

section Walk

variable {g : Graph} (hg : g.Sound) (hr : g.AtRest) {a b : Nat} (ha : a < g.size) (hb : b < g.size)
  (hmixed : g.shape.Unmixed a b)
include hg ha hb hmixed

theorem keeps_equating : Agenda.Keeps equalTurn (Equating g a b) := by
  refine ⟨fun {g₁ task waiting g₂ tasks} h ht => ?_⟩
  obtain ⟨x, y⟩ := task
  obtain ⟨hx, hy⟩ := (h.task (List.mem_cons_self ..)).reach
  rcases equalTurn_next ht with ⟨m, hfx, hfy, rfl, rfl⟩ | ⟨hfx, hfy, htype, hfeatures, rfl, rfl⟩
  · exact h.pop hmixed hfx hfy
  · exact h.push htype hfeatures hg (hg.reach_lt ha hx) (hg.reach_lt hb hy) hfx hfy

include hr

omit hmixed in
/-- Structures that are found equal have the same types along all paths, in whatever roles their
nodes were met. -/
theorem types_of_done {g' : Graph} (hrun : Agenda.run equalTurn g.weight g [(a, b)] = .done g')
    (path : List FeatureId) :
    (g.shape.follow? a path).map g.type = (g.shape.follow? b path).map g.type := by
  have hdone := (keeps_tallying hg).done (tallying_start hr ha hb) hrun
  have hjoined : ∀ {v w}, Due g' [] v w → v = w ∨ Joined g' v w := by
    rintro v w (heq | hjoined | hmem | hmem)
    · exact .inl heq
    · exact .inr hjoined
    · cases hmem
    · cases hmem
  -- the node that a note names stands between the nodes that have the note
  suffices hnote : ∀ {n k}, g'.forward? n = some k →
      (g.shape.follow? n path).map g.type = (g.shape.follow? k path).map g.type by
    rcases hjoined hdone.root with heq | ⟨m, hm, hm'⟩
    · rw [heq]
    · rw [hnote hm, hnote hm']
  induction path with
  | nil => exact fun hn => congrArg some (hdone.type hn)
  | cons f rest ih =>
    intro n k hn
    have hfeatures := hdone.features hn
    show ((g.value? n f).bind fun m => g.shape.follow? m rest).map g.type =
      ((g.value? k f).bind fun m => g.shape.follow? m rest).map g.type
    cases hv : g.value? n f with
    | some v =>
      obtain ⟨⟨_, w⟩, he, rfl, hmem⟩ := exists_valuePair hfeatures (hg.value_eq_some_iff.1 hv)
      rw [hg.value_eq_some_iff.2 he]
      have hvalues : v = w ∨ Joined g' v w := hjoined (hdone.values hn hmem)
      rcases hvalues with rfl | ⟨m, hm, hm'⟩
      · rfl
      · exact (ih hm).trans (ih hm').symm
    | none =>
      cases hw : g.value? k f with
      | none => rfl
      | some w =>
        obtain ⟨⟨_, v⟩, he, rfl, -⟩ :=
          exists_valuePair hfeatures.symm (hg.value_eq_some_iff.1 hw)
        rw [hg.value_eq_some_iff.2 he] at hv
        cases hv

/-- A walk that comes to its end has found an isomorphism. -/
theorem isomorphic_of_done {g' : Graph}
    (hrun : Agenda.run equalTurn g.weight g [(a, b)] = .done g') :
    g.shape.Isomorphic a g.shape b := by
  have hdone := (keeps_equating hg ha hb hmixed).done (equating_start hg hr a b) hrun
  have hdrop : ∀ {v w}, Met g' v w ∨ (v, w) ∈ ([] : List (NodeId × NodeId)) → Met g' v w :=
    fun hmet => hmet.resolve_right List.not_mem_nil
  -- at the end all pairs have been met, and they agree
  have hmet : ∀ {x y}, g.shape.Paired a b x y → Met g' x y := by
    intro x y hpair
    refine hpair.induct (hdrop hdone.root) ?_
    intro x y f v w hpair hmet hv hw
    obtain ⟨w', hw', hmet'⟩ := (hdone.eq_of_second hmixed hpair hmet.2).2.value hv
    cases hw'.symm.trans hw
    exact hdrop hmet'
  have hagree : ∀ {x y}, g.shape.Paired a b x y → Agreeing g g' [] x y :=
    fun hpair => (hdone.eq_of_second hmixed hpair (hmet hpair).2).2
  have hpartner : ∀ n, g.shape.Reach a n → ∃ m, g.shape.Paired a b n m := by
    intro n hn
    induction hn with
    | refl => exact ⟨b, .refl⟩
    | tail _ hstep ih =>
      obtain ⟨m, hm⟩ := ih
      obtain ⟨f, hf⟩ := hstep
      obtain ⟨w, hw, -⟩ := (hagree hm).value hf
      exact ⟨w, hm.value hf hw⟩
  have hfunctional : ∀ {x y z}, g.shape.Paired a b x y → g.shape.Paired a b x z → y = z := by
    intro x y z hy hz
    obtain ⟨k, hxk, -, honly, -⟩ := hdone.partner (hmet hy).1
    have hk : ∀ {w}, g.shape.Paired a b x w → w = k := by
      intro w hw
      rcases honly w (hmet hw).2 with rfl | rfl
      · exact (hmixed hw hxk).2
      · rfl
    rw [hk hy, hk hz]
  classical
  choose! μ hμ using hpartner
  refine ⟨μ, hfunctional (hμ a .refl) .refl, fun n hn m hm heq => ?_, fun n hn => ⟨?_, fun f => ?_⟩⟩
  · have h₁ := (hmet (hμ n hn)).2
    rw [heq, (hmet (hμ m hm)).2] at h₁
    exact (Option.some.inj h₁).symm
  · exact (hagree (hμ n hn)).type_eq.symm
  · cases hf : g.shape.value? n f with
    | some v =>
      obtain ⟨w, hw, -⟩ := (hagree (hμ n hn)).value hf
      have := hfunctional ((hμ n hn).value hf hw) (hμ v (hn.value hf))
      exact hw.trans (congrArg some this)
    | none =>
      cases hw : g.shape.value? (μ n) f with
      | none => rfl
      | some w =>
        have hsome := (hagree (hμ n hn)).isSome hw
        have hnone : g.value? n f = none := hf
        rw [hnone] at hsome
        cases hsome

/-- A walk along an isomorphism meets no difference. -/
theorem run_equalTurn_ne_halted (hiso : g.shape.Isomorphic a g.shape b) (g' : Graph)
    (waiting : List (NodeId × NodeId)) :
    Agenda.run equalTurn g.weight g [(a, b)] ≠ .halted g' () waiting := by
  intro hrun
  obtain ⟨μ, hroot, hinj, hμ⟩ := hiso
  obtain ⟨g₁, ⟨x, y⟩, h, ht⟩ :=
    (keeps_equating hg ha hb hmixed).halted (equating_start hg hr a b) hrun
  have hvalue := fun n hn => (hμ n hn).2
  have hpair := h.task (List.mem_cons_self ..)
  have hx := hpair.reach.1
  obtain rfl := hpair.eq_map hroot hvalue
  rcases equalTurn_halt ht with ⟨hne, -⟩ | ⟨-, -, -, hdiffer⟩
  · refine hne ?_
    cases hfx : g₁.forward? x with
    | some m =>
      obtain rfl := h.eq_of_first hmixed hpair hfx
      obtain ⟨k, hmk, hmet, -, -⟩ := h.partner hfx
      obtain rfl := hmk.eq_map hroot hvalue
      exact hmet.2.symm
    | none =>
      cases hfy : g₁.forward? (μ x) with
      | none => rfl
      | some m =>
        -- the partner of the image is the node itself, which has a note then
        obtain ⟨hm, -⟩ := h.eq_of_second hmixed hpair hfy
        have heq := hinj hx hm.reach.1 (hm.eq_map hroot hvalue)
        rw [heq, h.first hfy] at hfx
        cases hfx
  · refine hdiffer ⟨?_, ?_⟩
    · rw [h.type_eq, h.type_eq]
      exact (hμ x hx).1.symm
    · rw [h.edges_eq, h.edges_eq]
      refine Edges.features_eq (hg.sorted x) (hg.sorted (μ x)) fun f => ?_
      have hf := (hμ x hx).2 f
      show (g.value? x f).isSome = (g.value? (μ x) f).isSome
      rw [show g.value? (μ x) f = (g.value? x f).map μ from hf, Option.isSome_map]

end Walk

theorem equal_eq_true_iff (s : Session) (a b : NodeId) : (s.equal a b).1 = true ↔
    ∀ g waiting, Agenda.run equalTurn s.graph.weight s.graph [(a, b)] ≠ .halted g () waiting := by
  simp only [equal]
  split <;> simp_all

/-- What is found equal has the same types along all paths. -/
theorem types_of_equal {s : Session} (hg : s.graph.Sound) (hr : s.AtRest) {a b : Nat}
    (ha : a < s.graph.size) (hb : b < s.graph.size) (h : (s.equal a b).1 = true)
    (path : List FeatureId) :
    (s.shape.follow? a path).map s.graph.type = (s.shape.follow? b path).map s.graph.type := by
  rw [equal_eq_true_iff] at h
  cases hrun : Agenda.run equalTurn s.graph.weight s.graph [(a, b)] with
  | spent g waiting => exact absurd hrun (run_equalTurn_ne_spent hg.edgesLead ha hb g waiting)
  | done g => exact types_of_done hg hr ha hb hrun path
  | halted g answer waiting => exact absurd hrun (h g waiting)

/-- Where no node is met in two roles, equality is subsumption in both directions: the structures
differ in the numbers of their nodes only. -/
theorem equal_iff {s : Session} (hs : s.Sound) (hr : s.AtRest) {a b : Nat} (ha : a < s.graph.size)
    (hb : b < s.graph.size) (hmixed : s.shape.Unmixed a b) :
    ((s.equal a b).1 = true ↔ (s.subsumes a b).1 = true ∧ (s.subsumes b a).1 = true) ∧
      ((s.equal a b).1 = true ↔ s.shape.Isomorphic a s.shape b) := by
  have hiso : (s.equal a b).1 = true ↔ s.shape.Isomorphic a s.shape b := by
    rw [equal_eq_true_iff]
    refine ⟨fun h => ?_, run_equalTurn_ne_halted hs.graph hr ha hb hmixed⟩
    cases hrun : Agenda.run equalTurn s.graph.weight s.graph [(a, b)] with
    | spent g waiting =>
      exact absurd hrun (run_equalTurn_ne_spent hs.graph.edgesLead ha hb g waiting)
    | done g => exact isomorphic_of_done hs.graph hr ha hb hmixed hrun
    | halted g answer waiting => exact absurd hrun (h g waiting)
  refine ⟨hiso.trans ?_, hiso⟩
  rw [subsumes_iff hs hr ha hb, subsumes_iff hs hr hb ha]
  exact ⟨fun h => ⟨h.subsumes _, h.symm.subsumes _⟩,
    fun h => Shape.isomorphic_of_subsumes hs.grammar.lattice.hierarchy h.1 h.2⟩

/-- Two structures with the same coreference, apart from each other. -/
def twins : Session :=
  Sample.session (Sample.grammar [] [])
    [(.of 1, [⟨0, 1⟩, ⟨1, 1⟩]), (.of 4, []), (.of 1, [⟨0, 3⟩, ⟨1, 3⟩]), (.of 4, [])]

theorem sound_twins : twins.Sound ∧ twins.AtRest :=
  Sample.sound_session (Sample.sound_grammar (by decide) (by decide) (by decide))
    (by decide)

theorem unmixed_twins : twins.shape.Unmixed 0 2 := by
  refine Shape.unmixed_of_apart fun n hn hn' => ?_
  have hleft := sound_twins.1.graph.mem_of_reach [0, 1] (by decide) (by decide) hn
  have hright := sound_twins.1.graph.mem_of_reach [2, 3] (by decide) (by decide) hn'
  have hdisjoint : ∀ n ∈ [0, 1], n ∉ [2, 3] := by decide
  exact hdisjoint n hleft hright

theorem equal_iff_twins : twins.Sound ∧ twins.AtRest ∧ twins.shape.Unmixed 0 2 ∧
    ((twins.equal 0 2).1 = true ↔
      (twins.subsumes 0 2).1 = true ∧ (twins.subsumes 2 0).1 = true) ∧
    ((twins.equal 0 2).1 = true ↔ twins.shape.Isomorphic 0 twins.shape 2) :=
  ⟨sound_twins.1, sound_twins.2, unmixed_twins,
    equal_iff sound_twins.1 sound_twins.2 (by decide) (by decide) unmixed_twins⟩

/-- Structures that share nodes: the first two differ in a coreference, and the first and the third
do not differ. -/
def overlapping : Session :=
  Sample.session (Sample.grammar [] [])
    [(.of 1, [⟨0, 2⟩, ⟨1, 3⟩]), (.of 1, [⟨0, 3⟩, ⟨1, 3⟩]), (.of 4, []), (.of 4, []),
      (.of 1, [⟨0, 3⟩, ⟨1, 5⟩]), (.of 4, [])]

theorem sound_overlapping : overlapping.Sound ∧ overlapping.AtRest :=
  Sample.sound_session (Sample.sound_grammar (by decide) (by decide) (by decide))
    (by decide)

/-- Where structures share nodes, the walk calls some equal of which only one subsumes the other,
and others different that subsume each other. -/
theorem not_equal_iff :
    overlapping.Sound ∧ overlapping.AtRest ∧
      (overlapping.equal 0 1).1 = true ∧ (overlapping.subsumes 1 0).1 = false ∧
      (overlapping.equal 0 4).1 = false ∧ (overlapping.subsumes 0 4).1 = true ∧
      (overlapping.subsumes 4 0).1 = true := by
  refine ⟨sound_overlapping.1, sound_overlapping.2, ?_⟩
  decide

end Session

end FeatureLogic
