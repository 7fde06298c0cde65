/-!
Agendas: walks that keep what is left to do as a list of tasks instead of in nested calls, so that
a walk of any depth runs in constant stack. The tasks that a turn asks for come before those that
wait, which gives the order of a depth-first walk.
-/

namespace FeatureLogic

/-- What one task leads to: further tasks, or the end of the whole walk. -/
inductive Turn (σ τ ε : Type)
  /-- Go on, with these tasks before the waiting ones. -/
  | next (state : σ) (tasks : List τ)
  /-- End the walk at once. -/
  | halt (state : σ) (answer : ε)

/-- How a walk ends. -/
inductive Ending (σ τ ε : Type)
  /-- No task was left. -/
  | done (state : σ)
  /-- A turn ended the walk while the tasks `waiting` were left. -/
  | halted (state : σ) (answer : ε) (waiting : List τ)
  /-- The number of turns allowed was used up while the tasks `waiting` were left. -/
  | spent (state : σ) (waiting : List τ)

/-- The state at the end of a walk, whichever way it ended. -/
def Ending.state {σ τ ε : Type} : Ending σ τ ε → σ
  | .done state | .halted state _ _ | .spent state _ => state

namespace Agenda

variable {σ τ ε : Type}

/-- Takes turns until no task is left, one turn ends the walk, or `fuel` turns were taken. -/
@[specialize]
def run (turn : σ → τ → Turn σ τ ε) : Nat → σ → List τ → Ending σ τ ε
  | _, state, [] => .done state
  | 0, state, task :: waiting => .spent state (task :: waiting)
  | fuel + 1, state, task :: waiting =>
    match turn state task with
    | .next state tasks => run turn fuel state (tasks ++ waiting)
    | .halt state answer => .halted state answer waiting

@[simp] theorem run_nil (turn : σ → τ → Turn σ τ ε) (fuel : Nat) (state : σ) :
    run turn fuel state [] = .done state := by
  cases fuel <;> rfl

theorem run_cons_next {turn : σ → τ → Turn σ τ ε} {fuel : Nat} {state state' : σ} {task : τ}
    {tasks waiting : List τ} (h : turn state task = .next state' tasks) :
    run turn (fuel + 1) state (task :: waiting) = run turn fuel state' (tasks ++ waiting) := by
  simp [run, h]

theorem run_cons_halt {turn : σ → τ → Turn σ τ ε} {fuel : Nat} {state state' : σ} {task : τ}
    {answer : ε} {waiting : List τ} (h : turn state task = .halt state' answer) :
    run turn (fuel + 1) state (task :: waiting) = .halted state' answer waiting := by
  simp [run, h]

/-- A walk that comes to its end takes the same course when more turns are allowed. -/
theorem run_add {turn : σ → τ → Turn σ τ ε} {fuel : Nat} {state : σ} {tasks : List τ}
    (h : ∀ s waiting, run turn fuel state tasks ≠ .spent s waiting) (extra : Nat) :
    run turn (fuel + extra) state tasks = run turn fuel state tasks := by
  induction fuel generalizing state tasks with
  | zero =>
    cases tasks with
    | nil => simp
    | cons task waiting => exact absurd rfl (h state (task :: waiting))
  | succ fuel ih =>
    cases tasks with
    | nil => simp
    | cons task waiting =>
      rw [Nat.add_right_comm]
      cases ht : turn state task with
      | next state' more =>
        rw [run_cons_next ht, run_cons_next ht]
        exact ih fun s w hs => h s w (by rw [run_cons_next ht, hs])
      | halt state' answer => rw [run_cons_halt ht, run_cons_halt ht]

/-- A walk that has used up its turns goes on from where it stands when more are allowed. -/
theorem run_add_of_spent {turn : σ → τ → Turn σ τ ε} {fuel : Nat} {state state' : σ}
    {tasks waiting : List τ} (h : run turn fuel state tasks = .spent state' waiting)
    (extra : Nat) :
    run turn (fuel + extra) state tasks = run turn extra state' waiting := by
  induction fuel generalizing state tasks with
  | zero =>
    cases tasks with
    | nil => simp at h
    | cons task rest =>
      simp only [run, Ending.spent.injEq] at h
      rw [Nat.zero_add, h.1, h.2]
  | succ fuel ih =>
    cases tasks with
    | nil => simp at h
    | cons task rest =>
      rw [Nat.add_right_comm]
      cases ht : turn state task with
      | next next more =>
        rw [run_cons_next ht] at h ⊢
        exact ih h
      | halt next answer => simp [run_cons_halt ht] at h

/-! ### Rounds -/

/-- Takes up to `rounds` times `perRound` turns. A bound too large to be counted down turn by turn
is counted down round by round. -/
@[specialize]
def runRounds (turn : σ → τ → Turn σ τ ε) (perRound : Nat) : Nat → σ → List τ → Ending σ τ ε
  | 0, state, tasks => run turn 0 state tasks
  | rounds + 1, state, tasks =>
    match run turn perRound state tasks with
    | .spent state waiting => runRounds turn perRound rounds state waiting
    | ending => ending

/-- Rounds are a way of counting only. -/
theorem runRounds_eq_run (turn : σ → τ → Turn σ τ ε) (perRound rounds : Nat) (state : σ)
    (tasks : List τ) :
    runRounds turn perRound rounds state tasks = run turn (perRound * rounds) state tasks := by
  induction rounds generalizing state tasks with
  | zero => rfl
  | succ rounds ih =>
    rw [runRounds, Nat.mul_succ, Nat.add_comm (perRound * rounds)]
    cases h : run turn perRound state tasks with
    | spent state' waiting => rw [run_add_of_spent h]; exact ih state' waiting
    | done state' => rw [run_add (by simp [h]), h]
    | halted state' answer waiting => rw [run_add (by simp [h]), h]

end Agenda

end FeatureLogic
