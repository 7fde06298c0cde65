import Mathlib.Data.Set.Card
import FeatureLogic.Proofs.Agenda
import FeatureLogic.Proofs.Layout

/-!
Sharing. A node is shared when more than one edge leads to it, where the node at which one begins
counts as having one edge more (`Layout.Shared`). What is below a shared node, and nothing else, is
reached in more than one way (`Layout.twoWays_iff`).
-/

open Relation

namespace FeatureLogic.Layout

/-! ## Edges that lead to a node -/

/-- The edges to `m` from nodes below `x`, each told by its node and its place there. -/
def incoming (L : Layout) (x m : NodeId) : Set (NodeId × Nat) :=
  {p | L.Reach x p.1 ∧ ((L.edges p.1).map Edge.target)[p.2]? = some m}

/-- A node below `x` to which at least two edges lead from such nodes; `x` itself counts as having
one more. -/
def Shared (L : Layout) (x m : NodeId) : Prop :=
  L.Reach x m ∧ 2 ≤ (L.incoming x m).ncard + if m = x then 1 else 0

/-- An element is as often in a list as there are places where it stands. -/
theorem count_eq_card_places (list : List NodeId) (m : NodeId) :
    list.count m = ((Finset.range list.length).filter fun i => list[i]? = some m).card := by
  rw [Finset.card_filter]
  induction list with
  | nil => rfl
  | cons n rest ih =>
    rw [List.count_cons, List.length_cons, Finset.sum_range_succ', ih]
    simp

section Incoming

variable {L : Layout} {x m : NodeId} {size : Nat} (hsize : ∀ ⦃n : Nat⦄, L.Reach x n → n < size)
include hsize

theorem finite_incoming (m : NodeId) : (L.incoming x m).Finite := by
  refine ((Finset.range size).sigma fun n => Finset.range (L.edges n).length).finite_toSet.image
    (fun p => (p.1, p.2)) |>.subset ?_
  rintro ⟨n, i⟩ ⟨hn, hi⟩
  have hlt := (List.getElem?_eq_some_iff.1 hi).1
  exact ⟨⟨n, i⟩, by simpa using ⟨hsize hn, by simpa using hlt⟩, rfl⟩

/-- The edges to a node can be counted node by node. -/
theorem ncard_incoming (m : NodeId) : (L.incoming x m).ncard =
    Agenda.leftOver size (fun n => ((L.edges n).map Edge.target).count m)
      (fun n => ¬ L.Reach x n) := by
  classical
  have hfinite := finite_incoming hsize m
  have hmaps : ∀ p ∈ hfinite.toFinset, p.1 ∈ (Finset.range size).filter fun n => L.Reach x n := by
    intro p hp
    have hreach : L.Reach x p.1 := (hfinite.mem_toFinset.1 hp).1
    exact Finset.mem_filter.2 ⟨Finset.mem_range.2 (hsize hreach), hreach⟩
  rw [Set.ncard_eq_toFinset_card _ hfinite, Finset.card_eq_sum_card_fiberwise hmaps,
    Agenda.leftOver_not, ← Finset.sum_filter]
  refine Finset.sum_congr rfl fun n hn => ?_
  have hreach := (Finset.mem_filter.1 hn).2
  rw [count_eq_card_places]
  refine (Finset.card_bij (fun i _ => (n, i)) (fun i hi => ?_) (fun i _ j _ h => ?_)
    fun p hp => ?_).symm
  · exact Finset.mem_filter.2
      ⟨hfinite.mem_toFinset.2 ⟨hreach, (Finset.mem_filter.1 hi).2⟩, rfl⟩
  · exact (Prod.mk.inj h).2
  · obtain ⟨hedge, rfl⟩ := Finset.mem_filter.1 hp
    have hplace := (hfinite.mem_toFinset.1 hedge).2
    exact ⟨p.2, Finset.mem_filter.2
      ⟨Finset.mem_range.2 (List.getElem?_eq_some_iff.1 hplace).1, hplace⟩, rfl⟩

/-- A shared node has two edges to it, or is where one began and has one. -/
theorem shared_iff : L.Shared x m ↔ L.Reach x m ∧
    ((∃ p ∈ L.incoming x m, ∃ q ∈ L.incoming x m, p ≠ q) ∨
      m = x ∧ ∃ p, p ∈ L.incoming x m) := by
  have hfinite := finite_incoming hsize m
  refine and_congr_right fun _ => ?_
  have htwo : 2 ≤ (L.incoming x m).ncard ↔
      ∃ p ∈ L.incoming x m, ∃ q ∈ L.incoming x m, p ≠ q :=
    Set.one_lt_ncard_iff hfinite |>.trans (by simp)
  have hone : 1 ≤ (L.incoming x m).ncard ↔ ∃ p, p ∈ L.incoming x m :=
    Set.ncard_pos hfinite
  split
  · rename_i hm
    simp only [hm, true_and] at *
    rw [← htwo, ← hone]
    omega
  · rename_i hm
    simp [hm, htwo]

end Incoming

/-! ## Ways -/

/-- A way from `x` along edges: the places of the edges, and the features on it. -/
inductive Track (L : Layout) (x : NodeId) : List Nat → List FeatureId → NodeId → Prop
  | nil : Track L x [] [] x
  | snoc {places : List Nat} {path : List FeatureId} {n : NodeId} {i : Nat} {e : Edge}
    (h : Track L x places path n) (he : (L.edges n)[i]? = some e) :
    Track L x (places ++ [i]) (path ++ [e.feature]) e.target

/-- The path of features leads from `x` to `n`. -/
def Along (L : Layout) (x : NodeId) (path : List FeatureId) (n : NodeId) : Prop :=
  ∃ places, L.Track x places path n

/-- Two ways that take different edges somewhere lead from `x` to `n`. -/
def TwoWays (L : Layout) (x n : NodeId) : Prop :=
  ∃ places path places' path', L.Track x places path n ∧ L.Track x places' path' n ∧
    places ≠ places'

/-- Two paths of features lead from `x` to `n`. -/
def TwoPaths (L : Layout) (x n : NodeId) : Prop :=
  ∃ path path', L.Along x path n ∧ L.Along x path' n ∧ path ≠ path'

/-- No node below `x` has two edges for one feature. -/
def Functional (L : Layout) (x : NodeId) : Prop :=
  ∀ ⦃n⦄, L.Reach x n → ((L.edges n).map Edge.feature).Nodup

section Track

variable {L : Layout} {x n m : NodeId} {places places' : List Nat} {path path' : List FeatureId}

theorem Track.reach (h : L.Track x places path n) : L.Reach x n := by
  induction h with
  | nil => exact ReflTransGen.refl
  | snoc _ he ih => exact Reach.edge ih (List.mem_of_getElem? he)

theorem Track.length_eq (h : L.Track x places path n) : places.length = path.length := by
  induction h with
  | nil => rfl
  | snoc _ _ ih => simp [ih]

theorem exists_track_snoc (h : L.Track x places path n) (hs : L.Step n m) :
    ∃ i f, L.Track x (places ++ [i]) (path ++ [f]) m := by
  obtain ⟨e, he, rfl⟩ := hs
  obtain ⟨i, hi⟩ := List.getElem?_of_mem he
  exact ⟨i, e.feature, h.snoc hi⟩

theorem exists_track_of_reach (h : L.Reach x n) : ∃ places path, L.Track x places path n := by
  induction h with
  | refl => exact ⟨_, _, .nil⟩
  | tail _ hs ih =>
    obtain ⟨places, path, ht⟩ := ih
    obtain ⟨i, f, ht⟩ := exists_track_snoc ht hs
    exact ⟨_, _, ht⟩

/-- A way that is not empty comes to its end along an edge. -/
theorem Track.cases_snoc {i : Nat} (h : L.Track x (places ++ [i]) path m) : ∃ path' n e,
    L.Track x places path' n ∧ (L.edges n)[i]? = some e ∧ path = path' ++ [e.feature] ∧
      e.target = m := by
  generalize hall : places ++ [i] = all at h
  cases h with
  | nil => simp at hall
  | @snoc places' path' n j e h he =>
    obtain ⟨rfl, heq⟩ := List.append_inj' hall rfl
    obtain rfl : i = j := by simpa using heq
    exact ⟨path', n, e, h, he, rfl, rfl⟩

theorem Track.cases_nil (h : L.Track x [] path m) : path = [] ∧ m = x := by
  generalize hall : ([] : List Nat) = all at h
  cases h with
  | nil => exact ⟨rfl, rfl⟩
  | snoc => simp at hall

/-- The places tell where a way leads and which features are on it. -/
theorem Track.unique (h : L.Track x places path n) (h' : L.Track x places path' m) :
    path' = path ∧ m = n := by
  induction h generalizing path' m with
  | nil => exact h'.cases_nil
  | snoc _ he ih =>
    obtain ⟨path₁, n₁, e₁, h₁, he₁, rfl, rfl⟩ := h'.cases_snoc
    obtain ⟨rfl, rfl⟩ := ih h₁
    rw [he] at he₁
    cases he₁
    exact ⟨rfl, rfl⟩

theorem Track.incoming {i : Nat} {e : Edge} (h : L.Track x places path n)
    (he : (L.edges n)[i]? = some e) : (n, i) ∈ L.incoming x e.target :=
  ⟨h.reach, by simp [he]⟩

theorem exists_track_of_incoming {p : NodeId × Nat} (hp : p ∈ L.incoming x m) :
    ∃ places path path', L.Track x places path p.1 ∧ L.Track x (places ++ [p.2]) path' m := by
  obtain ⟨hreach, hedge⟩ := hp
  rw [List.getElem?_map] at hedge
  obtain ⟨e, he, rfl⟩ := Option.map_eq_some_iff.1 hedge
  obtain ⟨places, path, ht⟩ := exists_track_of_reach hreach
  exact ⟨places, path, _, ht, ht.snoc he⟩

/-! ### Two ways -/

theorem TwoWays.step (h : L.TwoWays x n) (hs : L.Step n m) : L.TwoWays x m := by
  obtain ⟨places, path, places', path', ht, ht', hne⟩ := h
  obtain ⟨e, he, rfl⟩ := hs
  obtain ⟨i, hi⟩ := List.getElem?_of_mem he
  exact ⟨_, _, _, _, ht.snoc hi, ht'.snoc hi, fun heq => hne (List.append_inj_left' heq rfl)⟩

variable {size : Nat} (hsize : ∀ ⦃n : Nat⦄, L.Reach x n → n < size)
include hsize

theorem Shared.twoWays (h : L.Shared x m) : L.TwoWays x m := by
  rcases (shared_iff hsize).1 h with ⟨-, ⟨p, hp, q, hq, hne⟩ | ⟨rfl, p, hp⟩⟩
  · obtain ⟨places, path, _, ht, ht'⟩ := exists_track_of_incoming hp
    obtain ⟨places', path', _, hu, hu'⟩ := exists_track_of_incoming hq
    refine ⟨_, _, _, _, ht', hu', fun heq => hne ?_⟩
    obtain ⟨rfl, hlast⟩ := List.append_inj' heq rfl
    exact Prod.ext (hu.unique ht).2 (by simpa using hlast)
  · obtain ⟨places, path, path', -, ht⟩ := exists_track_of_incoming hp
    exact ⟨_, _, _, _, .nil, ht, by simp⟩

/-- Of two ways to a node the last edges differ, and it is shared, or the same holds of the node
from which the last edge comes. -/
theorem exists_shared_of_tracks {path path' : List FeatureId} (h : L.Track x places path m)
    (h' : L.Track x places' path' m) (hne : places ≠ places') :
    ∃ k, L.Shared x k ∧ L.Reach k m := by
  induction places using List.reverseRecOn generalizing places' path path' m with
  | nil =>
    obtain ⟨-, rfl⟩ := h.cases_nil
    rcases List.eq_nil_or_concat places' with rfl | ⟨before, i, rfl⟩
    · exact absurd rfl hne
    · rw [List.concat_eq_append] at h'
      obtain ⟨_, n, e, ht, he, -, rfl⟩ := h'.cases_snoc
      exact ⟨_, (shared_iff hsize).2 ⟨h.reach, .inr ⟨rfl, _, ht.incoming he⟩⟩, ReflTransGen.refl⟩
  | append_singleton places i ih =>
    obtain ⟨_, n, e, ht, he, -, rfl⟩ := h.cases_snoc
    rcases List.eq_nil_or_concat places' with rfl | ⟨places', j, rfl⟩
    · obtain ⟨-, hx⟩ := h'.cases_nil
      exact ⟨_, (shared_iff hsize).2 ⟨h.reach, .inr ⟨hx, _, ht.incoming he⟩⟩, ReflTransGen.refl⟩
    · rw [List.concat_eq_append] at h' hne
      obtain ⟨_, n', e', ht', he', -, htarget⟩ := h'.cases_snoc
      by_cases hsame : (n, i) = (n', j)
      · cases hsame
        obtain ⟨k, hk, hreach⟩ := ih ht ht' fun heq => hne (by rw [heq])
        exact ⟨k, hk, hreach.edge (List.mem_of_getElem? he)⟩
      · exact ⟨_, (shared_iff hsize).2 ⟨h.reach, .inl ⟨_, ht.incoming he, _,
          htarget ▸ ht'.incoming he', hsame⟩⟩, ReflTransGen.refl⟩

/-- What is reached in two ways is below a shared node, and conversely. -/
theorem twoWays_iff : L.TwoWays x m ↔ ∃ k, L.Shared x k ∧ L.Reach k m := by
  constructor
  · rintro ⟨places, path, places', path', ht, ht', hne⟩
    exact exists_shared_of_tracks hsize ht ht' hne
  · rintro ⟨k, hk, hreach⟩
    induction hreach with
    | refl => exact hk.twoWays hsize
    | tail _ hs ih => exact ih.step hs

end Track

/-! ### Ways and paths -/

section Functional

variable {L : Layout} {x n m : NodeId} {places places' : List Nat} {path : List FeatureId}

/-- Where features are unique a path tells the edges that it takes. -/
theorem Functional.unique (hL : L.Functional x) (h : L.Track x places path n)
    (h' : L.Track x places' path m) : places' = places ∧ m = n := by
  induction h generalizing places' m with
  | nil =>
    have hnil : places' = [] := List.length_eq_zero_iff.1 h'.length_eq
    subst hnil
    exact ⟨rfl, h'.cases_nil.2⟩
  | @snoc places path n i e h he ih =>
    rcases List.eq_nil_or_concat places' with rfl | ⟨places', j, rfl⟩
    · have := h'.length_eq
      simp at this
    · rw [List.concat_eq_append] at h' ⊢
      obtain ⟨path', n', e', ht', he', hpath, rfl⟩ := h'.cases_snoc
      obtain ⟨rfl, hfeature⟩ := List.append_inj' hpath rfl
      obtain ⟨rfl, rfl⟩ := ih ht'
      have hplace : i = j := by
        refine (List.getElem?_inj ?_ (hL h.reach)).1 ?_
        · simpa using (List.getElem?_eq_some_iff.1 he).1
        · simpa [he, he'] using hfeature
      subst hplace
      rw [he] at he'
      cases he'
      exact ⟨rfl, rfl⟩

theorem Functional.twoPaths_iff (hL : L.Functional x) : L.TwoPaths x n ↔ L.TwoWays x n := by
  constructor
  · rintro ⟨path, path', ⟨places, ht⟩, ⟨places', ht'⟩, hne⟩
    refine ⟨_, _, _, _, ht, ht', fun heq => hne ?_⟩
    subst heq
    exact (ht'.unique ht).1
  · rintro ⟨places, path, places', path', ht, ht', hne⟩
    refine ⟨path, path', ⟨_, ht⟩, ⟨_, ht'⟩, fun heq => hne ?_⟩
    subst heq
    exact (hL.unique ht' ht).1

end Functional

end FeatureLogic.Layout
