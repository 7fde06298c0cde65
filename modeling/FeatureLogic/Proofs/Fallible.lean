import Mathlib.Data.List.Forall2
import Mathlib.Tactic.Push

/-!
Computations over a list that may fail. If none fails all have results; if one fails, the failure is
that of one of them.
-/

namespace FeatureLogic

theorem eq_ok_of_toOption {ε α : Type} {x : Except ε α} {a : α} (h : x.toOption = some a) :
    x = .ok a := by
  cases x with
  | error e => cases h
  | ok b =>
    cases h
    rfl

/-- Where there are results each is that of its computation. -/
theorem forall₂_of_mapM {α β ε : Type} {f : α → Except ε β} {list : List α} {out : List β}
    (h : list.mapM f = .ok out) : List.Forall₂ (fun x y => f x = .ok y) list out := by
  induction list generalizing out with
  | nil =>
    cases h
    exact .nil
  | cons x rest ih =>
    rw [List.mapM_cons] at h
    cases hx : f x with
    | error e => simp [hx, bind, Except.bind] at h
    | ok y =>
      cases hrest : rest.mapM f with
      | error e => simp [hx, hrest, bind, Except.bind] at h
      | ok ys =>
        simp only [hx, hrest, bind, Except.bind, pure, Except.pure, Except.ok.injEq] at h
        subst h
        exact .cons hx (ih hrest)

/-- A failure is that of one of the computations. -/
theorem mapM_error {α β ε : Type} {f : α → Except ε β} {list : List α} {e : ε}
    (h : list.mapM f = .error e) : ∃ x ∈ list, f x = .error e := by
  by_contra hnone
  push Not at hnone
  induction list with
  | nil => cases h
  | cons x rest ih =>
    rw [List.mapM_cons] at h
    cases hx : f x with
    | error e' =>
      simp only [hx, bind, Except.bind, Except.error.injEq] at h
      exact hnone x List.mem_cons_self (h ▸ hx)
    | ok y =>
      cases hrest : rest.mapM f with
      | error e' =>
        simp only [hx, hrest, bind, Except.bind, Except.error.injEq] at h
        exact ih (h ▸ hrest) fun z hz => hnone z (List.mem_cons_of_mem _ hz)
      | ok ys => simp [hx, hrest, bind, Except.bind, pure, Except.pure] at h

theorem exists_of_forall₂ {α β : Type} {R : α → β → Prop} {list : List α} {out : List β}
    (h : List.Forall₂ R list out) {x : α} (hx : x ∈ list) : ∃ y ∈ out, R x y := by
  induction h with
  | nil => cases hx
  | cons hr _ ih =>
    rcases List.mem_cons.1 hx with rfl | hx
    · exact ⟨_, List.mem_cons_self, hr⟩
    · obtain ⟨y, hy, hr⟩ := ih hx
      exact ⟨y, List.mem_cons_of_mem _ hy, hr⟩

end FeatureLogic
