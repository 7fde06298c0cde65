import FeatureLogic.Graph.Trail
import FeatureLogic.Proofs.Graph.Entangled

/-!
Trails. A trail has all nodes that can be reached from its root, each of them once, and the places of
its nodes are those in its order.
-/

open Relation

namespace FeatureLogic

namespace Trail

variable {size : Nat} {next : NodeId → List NodeId} {root : NodeId}

/-- The second node comes right after the first. -/
def Follows (next : NodeId → List NodeId) (n m : NodeId) : Prop := m ∈ next n

/-- What holds between two turns of a walk. -/
structure Walking (size : Nat) (next : NodeId → List NodeId) (root : NodeId) (t : Trail)
    (tasks : List NodeId) : Prop where
  places_size : t.places.size = size
  nodup : t.order.toList.Nodup
  /-- Just the nodes on the trail have a place. -/
  place_iff : ∀ n, (t.place? n).isSome ↔ n ∈ t.order.toList
  reach : ∀ n, n ∈ t.order.toList ∨ n ∈ tasks → ReflTransGen (Follows next) root n
  /-- What comes after a node on the trail is on the trail or waits. -/
  closed : ∀ n ∈ t.order.toList, ∀ m ∈ next n, m ∈ t.order.toList ∨ m ∈ tasks
  root_mem : root ∈ t.order.toList ∨ root ∈ tasks

theorem place?_start (size n : Nat) : (start size).place? n = none := by
  simp only [place?, start, Array.getD_eq_getD_getElem?, Array.getElem?_replicate]
  split <;> rfl

theorem walking_start : Walking size next root (start size) [root] where
  places_size := Array.size_replicate
  nodup := List.nodup_nil
  place_iff n := by
    rw [place?_start]
    exact ⟨nofun, nofun⟩
  reach n hn := by
    rcases hn with hn | hn
    · cases hn
    · rw [List.mem_singleton.1 hn]
  closed n hn := by cases hn
  root_mem := .inr (List.mem_singleton.2 rfl)

theorem meet_next {t t' : Trail} {n : NodeId} {tasks : List NodeId}
    (h : meet next t n = .next t' tasks) :
    ((t.place? n).isSome ∧ t' = t ∧ tasks = []) ∨
      (t.place? n = none ∧
        t' = ⟨t.order.push n, t.places.setIfInBounds n (some t.order.size)⟩ ∧ tasks = next n) := by
  unfold meet at h
  split at h
  · rename_i place hplace
    cases h
    exact .inl ⟨by simp [hplace], rfl, rfl⟩
  · rename_i hplace
    cases h
    exact .inr ⟨hplace, rfl, rfl⟩

/-- A node that is met for the first time gets a place, and no other node does. -/
theorem place?_push {t : Trail} {n : NodeId} (hn : n < t.places.size) (m : NodeId) :
    (Trail.mk (t.order.push n) (t.places.setIfInBounds n (some t.order.size))).place? m =
      if m = n then some t.order.size else t.place? m := by
  simp only [place?, Array.getD_eq_getD_getElem?, Array.getElem?_setIfInBounds]
  by_cases h : n = m
  · subst h
    simp [hn]
  · simp [h, Ne.symm h]

/-- The places of a trail are those of its nodes in the order, and the root comes first. -/
structure Placed (root : NodeId) (t : Trail) (tasks : List NodeId) : Prop where
  place_eq_some_iff : ∀ {n i}, t.place? n = some i ↔ t.order[i]? = some n
  root_first : t.order[0]? = some root ∨ t.order = #[] ∧ tasks = [root]

theorem placed_start : Placed root (start size) [root] where
  place_eq_some_iff := by
    intro n i
    rw [place?_start]
    exact ⟨nofun, nofun⟩
  root_first := .inr ⟨rfl, rfl⟩

theorem Placed.pop {t : Trail} {n : NodeId} {waiting : List NodeId}
    (h : Placed root t (n :: waiting)) (hplace : (t.place? n).isSome) : Placed root t waiting where
  place_eq_some_iff := h.place_eq_some_iff
  root_first := by
    refine h.root_first.imp_right fun ⟨hempty, _⟩ => ?_
    obtain ⟨i, hi⟩ := Option.isSome_iff_exists.1 hplace
    have hmem := h.place_eq_some_iff.1 hi
    rw [hempty] at hmem
    cases hmem

theorem Placed.push {t : Trail} {n : NodeId} {waiting tasks : List NodeId}
    (h : Placed root t (n :: waiting)) (hn : n < t.places.size) (hplace : t.place? n = none) :
    Placed root ⟨t.order.push n, t.places.setIfInBounds n (some t.order.size)⟩ tasks where
  place_eq_some_iff := by
    intro m i
    rw [place?_push hn, Array.getElem?_push]
    have hi := h.place_eq_some_iff (n := m) (i := i)
    -- the new node has the next place, and the others have theirs
    by_cases hm : m = n <;> by_cases hsize : i = t.order.size
    · simp [hm, hsize]
    · subst hm
      rw [hplace] at hi
      simp only [if_true, if_neg hsize, ← hi, Option.some.injEq, reduceCtorEq, iff_false]
      exact Ne.symm hsize
    · subst hsize
      simp [hm, Ne.symm hm, hi]
    · rw [if_neg hm, if_neg hsize, hi]
  root_first := by
    refine .inl ?_
    rw [Array.getElem?_push]
    rcases h.root_first with hroot | ⟨hempty, htasks⟩
    · have hpos := (Array.getElem?_eq_some_iff.1 hroot).1
      rw [if_neg (Nat.ne_of_lt hpos)]
      exact hroot
    · cases htasks
      rw [hempty]
      rfl

theorem lt_of_reach (hroot : root < size) (hnext : ∀ n < size, ∀ m ∈ next n, m < size)
    {n : NodeId} (hn : ReflTransGen (Follows next) root n) : n < size := by
  induction hn with
  | refl => exact hroot
  | tail _ hstep ih => exact hnext _ ih _ hstep

section

variable (hlt : ∀ {n : Nat}, ReflTransGen (Follows next) root n → n < size)
include hlt

theorem keeps_walking : Agenda.Keeps (meet next) (Walking size next root) where
  next {t n waiting t' tasks} h ht := by
    rcases meet_next ht with ⟨hplace, rfl, rfl⟩ | ⟨hplace, rfl, rfl⟩
    · -- what waited for this node finds it on the trail
      have hmem := (h.place_iff n).1 hplace
      have hdrop : ∀ {m : NodeId} {list : List NodeId},
          m ∈ list ∨ m ∈ n :: waiting → n ∈ list → m ∈ list ∨ m ∈ [] ++ waiting := by
        intro m list hm hn
        rcases hm with hm | hm
        · exact .inl hm
        · rcases List.mem_cons.1 hm with rfl | hm
          · exact .inl hn
          · exact .inr hm
      exact ⟨h.places_size, h.nodup, h.place_iff,
        fun m hm => h.reach m (hm.imp_right fun hm => List.mem_cons_of_mem _ hm),
        fun m hm k hk => hdrop (h.closed m hm k hk) hmem, hdrop h.root_mem hmem⟩
    · -- a new node comes last on the trail, and what follows it waits
      have hreach := h.reach n (.inr (List.mem_cons_self ..))
      have hlt : n < t.places.size := h.places_size ▸ hlt hreach
      have hnew : n ∉ t.order.toList := fun hmem => by
        have := (h.place_iff n).2 hmem
        rw [hplace] at this
        cases this
      have hpush : ∀ m, m ∈ (t.order.push n).toList ↔ m ∈ t.order.toList ∨ m = n := by
        intro m
        rw [Array.toList_push, List.mem_append, List.mem_singleton]
      have hmove : ∀ {m : NodeId}, m ∈ t.order.toList ∨ m ∈ n :: waiting →
          m ∈ (t.order.push n).toList ∨ m ∈ next n ++ waiting := by
        intro m hm
        rw [hpush, List.mem_append]
        rcases hm with hm | hm
        · exact .inl (.inl hm)
        · rcases List.mem_cons.1 hm with rfl | hm
          · exact .inl (.inr rfl)
          · exact .inr (.inr hm)
      refine ⟨?_, ?_, fun m => ?_, fun m hm => ?_, fun m hm k hk => ?_, hmove h.root_mem⟩
      · exact Array.size_setIfInBounds.trans h.places_size
      · rw [Array.toList_push, List.nodup_append]
        refine ⟨h.nodup, List.nodup_singleton n, fun a ha b hb => ?_⟩
        rw [List.mem_singleton.1 hb]
        exact fun hab => hnew (hab ▸ ha)
      · rw [place?_push hlt, hpush]
        split
        · rename_i heq
          simp [heq]
        · rename_i hne
          rw [h.place_iff, or_iff_left hne]
      · rw [hpush, List.mem_append] at hm
        rcases hm with (hm | rfl) | hm | hm
        · exact h.reach m (.inl hm)
        · exact hreach
        · exact hreach.tail hm
        · exact h.reach m (.inr (List.mem_cons_of_mem _ hm))
      · rcases (hpush m).1 hm with hm | rfl
        · exact hmove (h.closed m hm k hk)
        · exact .inr (List.mem_append_left _ hk)

theorem keeps_placed : Agenda.Keeps (meet next) fun t tasks =>
    Walking size next root t tasks ∧ Placed root t tasks where
  next {t n waiting t' tasks} h ht := by
    obtain ⟨hwalk, hplaced⟩ := h
    refine ⟨(keeps_walking hlt).next hwalk ht, ?_⟩
    rcases meet_next ht with ⟨hplace, rfl, rfl⟩ | ⟨hplace, rfl, rfl⟩
    · exact hplaced.pop hplace
    · have hn := hlt (hwalk.reach n (.inr (List.mem_cons_self ..)))
      exact hplaced.push (hwalk.places_size ▸ hn) hplace

/-- A walk comes to its end within its bound. -/
theorem exists_run_eq_done {work : Nat}
    (hwork : 1 + Agenda.leftOver size (fun n => (next n).length) (fun _ => False) ≤ work) :
    ∃ t, Agenda.run (meet next) work (start size) [root] = .done t ∧
      Walking size next root t [] ∧ Placed root t [] := by
  have hkeeps := keeps_placed hlt
  have hinit : Walking size next root (start size) [root] ∧ Placed root (start size) [root] :=
    ⟨walking_start, placed_start⟩
  have hstart : (fun n => (place? (start size) n).isSome = true) = fun _ => False := by
    funext n
    simp [place?_start]
  have hspent := hkeeps.run_ne_spent_of_marks size (fun n => (next n).length)
    (fun t n => (t.place? n).isSome) (fun {t n waiting t' tasks} h ht => by
      rcases meet_next ht with ⟨-, rfl, rfl⟩ | ⟨hplace, rfl, rfl⟩
      · exact .inl ⟨rfl, fun _ => Iff.rfl⟩
      · have hn := hlt (h.1.reach n (.inr (List.mem_cons_self ..)))
        refine .inr ⟨n, hn, by simp [hplace], fun m => ?_, Nat.le_refl _⟩
        rw [place?_push (h.1.places_size ▸ hn)]
        split <;> simp [*])
    hinit (hstart ▸ hwork)
  cases hrun : Agenda.run (meet next) work (start size) [root] with
  | spent t waiting => exact absurd hrun (hspent t waiting)
  | halted t answer waiting => exact answer.elim
  | done t => exact ⟨t, rfl, hkeeps.done hinit hrun⟩

end

/-- At the end of a walk the trail has all nodes that can be reached and no others. -/
theorem Walking.mem_iff {t : Trail} (h : Walking size next root t []) (n : NodeId) :
    n ∈ t.order.toList ↔ ReflTransGen (Follows next) root n := by
  refine ⟨fun hn => h.reach n (.inl hn), fun hn => ?_⟩
  induction hn with
  | refl => exact h.root_mem.resolve_right List.not_mem_nil
  | tail _ hstep ih => exact (h.closed _ ih _ hstep).resolve_right List.not_mem_nil

/-- A trail has all nodes that can be reached and no others, and each of them once. -/
theorem walk_spec (hlt : ∀ {n : Nat}, ReflTransGen (Follows next) root n → n < size) {work : Nat}
    (hwork : 1 + Agenda.leftOver size (fun n => (next n).length) (fun _ => False) ≤ work) :
    (walk size work next root).order.toList.Nodup ∧
      ∀ n, n ∈ (walk size work next root).order.toList ↔ ReflTransGen (Follows next) root n := by
  obtain ⟨t, hrun, hwalk, -⟩ := exists_run_eq_done hlt hwork
  rw [walk, hrun]
  exact ⟨hwalk.nodup, hwalk.mem_iff⟩

end Trail

namespace Graph

/-- What comes right after a node on the trail along committed edges. -/
def targets (g : Graph) (n : NodeId) : List NodeId := (g.edges n).map Edge.target

/-- The walk along committed edges comes to its end. -/
theorem Whole.exists_trail {g : Graph} {root : NodeId} (hwhole : g.Whole root) :
    ∃ t, Agenda.run (Trail.meet g.targets) g.weight (.start g.size) [root] = .done t ∧
      t.order.toList.Nodup ∧ (∀ n, n ∈ t.order.toList ↔ g.Below root n) ∧
      Trail.Placed root t [] := by
  have hbelow : ReflTransGen (Trail.Follows g.targets) root = g.Below root := by
    unfold Below
    congr 1
    funext n m
    exact propext List.mem_map
  have hwork := g.leftOver_lt_weight (fun n => (g.targets n).length) (fun _ => False) fun n => by
    rw [targets, List.length_map]
    omega
  obtain ⟨t, hrun, hwalk, hplaced⟩ := Trail.exists_run_eq_done
    (fun {n} hn => hwhole (hbelow ▸ hn)) hwork
  exact ⟨t, hrun, hwalk.nodup, fun n => by rw [hwalk.mem_iff, hbelow], hplaced⟩

/-- The trail along committed edges has the nodes below its root. -/
theorem EdgesLead.trail_spec {g : Graph} (hg : g.EdgesLead) {root : Nat} (hroot : root < g.size) :
    (g.trail root).order.toList.Nodup ∧
      ∀ n, n ∈ (g.trail root).order.toList ↔ g.Below root n := by
  obtain ⟨t, hrun, hnodup, hmem, -⟩ := (hg.whole hroot).exists_trail
  have htrail : g.trail root = t := congrArg Ending.state hrun
  rw [htrail]
  exact ⟨hnodup, hmem⟩

/-- The targets of a node are those of its edges in the structure of the episode. -/
theorem mem_currentTargets {g : Graph} {n m : NodeId} :
    m ∈ g.currentTargets n ↔ g.view.Step n m := by
  rw [currentTargets, List.mem_map]
  constructor
  · rintro ⟨e, he, rfl⟩
    exact ⟨⟨e.feature, g.deref e.target⟩, Edges.mem_mapTargets.2 ⟨e, he, rfl, rfl⟩, rfl⟩
  · rintro ⟨e, he, rfl⟩
    obtain ⟨d, hd, -, htarget⟩ := Edges.mem_mapTargets.1 he
    exact ⟨d, hd, htarget⟩

/-- The trail along current edges has the nodes of the structure of the episode. -/
theorem Linked.currentTrail_spec {g : Graph} (h : g.Linked) {root : Nat}
    (hroot : root < g.size) : (g.currentTrail root).order.toList.Nodup ∧
      ∀ n, n ∈ (g.currentTrail root).order.toList ↔ g.view.Reach (g.deref root) n := by
  have hstep : Trail.Follows g.currentTargets = g.view.Step := by
    funext n m
    exact propext mem_currentTargets
  have hwork := g.leftOver_lt_weight (fun n => (g.currentTargets n).length) (fun _ => False)
    fun n => by
      have := Entangled.length_currentEdges_le g n
      rw [currentTargets, List.length_map]
      omega
  have hnext : ∀ n < g.size, ∀ m ∈ g.currentTargets n, m < g.size := by
    intro n _ m hm
    obtain ⟨e, he, rfl⟩ := List.mem_map.1 hm
    exact h.deref_lt (h.currentEdges_lt he)
  have hspec := Trail.walk_spec (Trail.lt_of_reach (h.deref_lt hroot) hnext) hwork
  rw [hstep] at hspec
  exact hspec

end Graph

end FeatureLogic
