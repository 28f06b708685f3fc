import Mathlib.Logic.Function.Basic
import ESPressioSystem.Transition

set_option autoImplicit false

/-!
# What an observer sees of an execution, and objects whose calls take effect at once
-/
namespace ESPressioSystem.Refinement
open Transition

section
variable {State Action Event : Type} (next : State → Action → Option State)
  (shows : State → Action → List Event)

/-- The events of an execution, where `shows` says what a step lets be seen. -/
def trace : State → List Action → List Event
  | _, [] => []
  | s, a :: as => shows s a ++ (next s a).elim [] fun t => trace t as

@[simp] theorem trace_nil (s : State) : trace next shows s [] = [] := rfl

variable {next shows}

theorem trace_cons {s t : State} {a : Action} (as : List Action) (h : next s a = some t) :
    trace next shows s (a :: as) = shows s a ++ trace next shows t as := by
  rw [trace, h, Option.elim_some]

theorem trace_append {s t : State} {as : List Action} (bs : List Action)
    (h : run next s as = some t) :
    trace next shows s (as ++ bs) = trace next shows s as ++ trace next shows t bs := by
  induction as generalizing s with
  | nil =>
    rw [run_nil, Option.some.injEq] at h
    rw [h, List.nil_append, trace_nil, List.nil_append]
  | cons a as ih =>
    obtain ⟨u, hu, htail⟩ := (run_cons next).mp h
    rw [List.cons_append, trace_cons _ hu, trace_cons _ hu, ih htail, List.append_assoc]

end

section
variable {State Action State' Action' Event : Type} {next : State → Action → Option State}
  {shows : State → Action → List Event} {next' : State' → Action' → Option State'}
  {shows' : State' → Action' → List Event}

/-- If each step of one machine is matched by an execution of another that lets the same be
seen, then so is each execution. -/
theorem simulation_run {R : State → State' → Prop}
    (step : ∀ s a t u, R s u → next s a = some t →
      ∃ bs v, run next' u bs = some v ∧ trace next' shows' u bs = shows s a ∧ R t v)
    {s t : State} {u : State'} {as : List Action} (hR : R s u) (h : run next s as = some t) :
    ∃ bs v, run next' u bs = some v ∧
      trace next' shows' u bs = trace next shows s as ∧ R t v := by
  induction as generalizing s u with
  | nil =>
    rw [run_nil, Option.some.injEq] at h
    exact ⟨[], u, rfl, rfl, h ▸ hR⟩
  | cons a as ih =>
    obtain ⟨mid, hmid, htail⟩ := (run_cons next).mp h
    obtain ⟨bs, v, hbs, seen, hv⟩ := step s a mid u hR hmid
    obtain ⟨cs, x, hcs, later, hx⟩ := ih hv htail
    refine ⟨bs ++ cs, x, run_trans _ hbs hcs, ?_, hx⟩
    rw [trace_append _ hbs, seen, later, trace_cons _ hmid]

end

/-- An object whose calls take effect at one moment; `internal` steps are its own. -/
structure AtomicObject (Thread Op Ret : Type) where
  State : Type
  Internal : Type
  init : State
  perform : State → Thread → Op → Ret → Option State
  internal : State → Internal → Option State

/-- A call that is `done` has taken effect and not yet returned. -/
inductive Status (Op Ret : Type) where
  | idle
  | called (op : Op)
  | done (op : Op) (ret : Ret)
  deriving DecidableEq

inductive CallEvent (Thread Op Ret : Type) where
  | invoked (t : Thread) (op : Op)
  | returned (t : Thread) (op : Op) (ret : Ret)
  deriving DecidableEq

section
variable {Thread Op Ret : Type} [DecidableEq Thread]

structure Configuration (O : AtomicObject Thread Op Ret) where
  object : O.State
  status : Thread → Status Op Ret

inductive Move (O : AtomicObject Thread Op Ret) where
  | invoke (t : Thread) (op : Op)
  | commit (t : Thread) (ret : Ret)
  | leave (t : Thread)
  | internal (i : O.Internal)

variable {O : AtomicObject Thread Op Ret}

def Configuration.initial (O : AtomicObject Thread Op Ret) : Configuration O :=
  ⟨O.init, fun _ => .idle⟩

def Configuration.set (c : Configuration O) (t : Thread) (status : Status Op Ret) : Configuration O :=
  { c with status := Function.update c.status t status }

def move (c : Configuration O) : Move O → Option (Configuration O)
  | .invoke t op =>
    match c.status t with
    | .idle => some (c.set t (.called op))
    | _ => none
  | .commit t ret =>
    match c.status t with
    | .called op => (O.perform c.object t op ret).map fun o => { c.set t (.done op ret) with object := o }
    | _ => none
  | .leave t =>
    match c.status t with
    | .done _ _ => some (c.set t .idle)
    | _ => none
  | .internal i => (O.internal c.object i).map fun o => { c with object := o }

def moveShows (c : Configuration O) : Move O → List (CallEvent Thread Op Ret)
  | .invoke t op => [.invoked t op]
  | .leave t =>
    match c.status t with
    | .done op ret => [.returned t op ret]
    | _ => []
  | .commit _ _ | .internal _ => []

/-- The calls could have been made on one atomic object, each taking effect at some moment
between its invocation and its return. -/
def Linearizable (O : AtomicObject Thread Op Ret) (events : List (CallEvent Thread Op Ret)) : Prop :=
  ∃ moves c, run move (.initial O) moves = some c ∧
    trace move moveShows (.initial O) moves = events

/-- A machine that starts in a state related to the fresh object and keeps step with it. -/
theorem linearizable_of_simulation {State Action : Type} {next : State → Action → Option State}
    {shows : State → Action → List (CallEvent Thread Op Ret)} {R : State → Configuration O → Prop}
    (step : ∀ s a t c, R s c → next s a = some t →
      ∃ moves d, run move c moves = some d ∧ trace move moveShows c moves = shows s a ∧ R t d)
    {s t : State} {as : List Action} (start : R s (.initial O)) (h : run next s as = some t) :
    Linearizable O (trace next shows s as) := by
  obtain ⟨moves, c, hmoves, seen, _⟩ := simulation_run step start h
  exact ⟨moves, c, hmoves, seen⟩

variable {c : Configuration O} {t : Thread} {op : Op} {ret : Ret}

theorem move_invoke (idle : c.status t = .idle) (op : Op) :
    run move c [.invoke t op] = some (c.set t (.called op)) ∧
      trace move moveShows c [.invoke t op] = [.invoked t op] := by
  have taken : move c (.invoke t op) = some (c.set t (.called op)) := by
    simp only [move, idle]
  exact ⟨(run_singleton _ _ _).trans taken, by rw [trace_cons [] taken]; rfl⟩

theorem move_commit (called : c.status t = .called op) {o : O.State}
    (performed : O.perform c.object t op ret = some o) :
    run move c [.commit t ret] = some { c.set t (.done op ret) with object := o } ∧
      trace move moveShows c [.commit t ret] = [] := by
  have taken : move c (.commit t ret) = some { c.set t (.done op ret) with object := o } := by
    simp only [move, called, performed, Option.map_some]
  exact ⟨(run_singleton _ _ _).trans taken, by rw [trace_cons [] taken]; rfl⟩

theorem move_leave (done : c.status t = .done op ret) :
    run move c [.leave t] = some (c.set t .idle) ∧
      trace move moveShows c [.leave t] = [.returned t op ret] := by
  have taken : move c (.leave t) = some (c.set t .idle) := by
    simp only [move, done]
  exact ⟨(run_singleton _ _ _).trans taken, by rw [trace_cons [] taken]; simp only [moveShows, done]; rfl⟩

theorem move_internal {i : O.Internal} {o : O.State} (changed : O.internal c.object i = some o) :
    run move c [.internal i] = some { c with object := o } ∧
      trace move moveShows c [.internal i] = [] := by
  have taken : move c (.internal i) = some { c with object := o } := by
    simp only [move, changed, Option.map_some]
  exact ⟨(run_singleton _ _ _).trans taken, by rw [trace_cons [] taken]; rfl⟩

theorem move_complete (called : c.status t = .called op) {o : O.State}
    (performed : O.perform c.object t op ret = some o) :
    run move c [.commit t ret, .leave t] = some { c.set t .idle with object := o } ∧
      trace move moveShows c [.commit t ret, .leave t] = [.returned t op ret] := by
  obtain ⟨committed, silent⟩ := move_commit called performed
  have done : ({ c.set t (.done op ret) with object := o } : Configuration O).status t =
      .done op ret := Function.update_self _ _ _
  obtain ⟨left, seen⟩ := move_leave done
  have whole : run move c [.commit t ret, .leave t] = _ := run_trans _ committed left
  refine ⟨?_, ?_⟩
  · simpa only [Configuration.set, Function.update_idem] using whole
  · have parts : trace move moveShows c [.commit t ret, .leave t] = _ :=
      trace_append [.leave t] committed
    rw [silent, seen] at parts
    exact parts

end

end ESPressioSystem.Refinement
