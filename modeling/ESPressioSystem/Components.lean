import ESPressioSystem.Refinement

set_option autoImplicit false

/-!
# Systems of parts that share an environment
-/
namespace ESPressioSystem.Components
open Transition Refinement

structure Component (Env : Type) where
  State : Type
  Action : Type
  step : Env → State → Action → Option State

section
variable {Env Change ι : Type}

structure System (K : ι → Component Env) where
  env : Env
  part : ∀ i, (K i).State

inductive SystemAction (Change : Type) (K : ι → Component Env) where
  | change (c : Change)
  | act (i : ι) (a : (K i).Action)

variable [DecidableEq ι] {K : ι → Component Env}

def next (apply : Env → Change → Env) (s : System K) : SystemAction Change K → Option (System K)
  | .change c => some { s with env := apply s.env c }
  | .act i a => ((K i).step s.env (s.part i) a).map fun p =>
    { s with part := Function.update s.part i p }

variable {apply : Env → Change → Env}

theorem act_cases {s t : System K} {i : ι} {a : (K i).Action}
    (h : next apply s (.act i a) = some t) :
    ∃ p, (K i).step s.env (s.part i) a = some p ∧
      t = { s with part := Function.update s.part i p } := by
  obtain ⟨p, hp, ht⟩ := Option.map_eq_some_iff.mp h
  exact ⟨p, hp, ht.symm⟩

/-- What each part keeps by itself, in the environments that the changes lead through, holds of
all parts at the end of every execution. -/
theorem parts_run {E : Env → Prop} {I : ∀ i, (K i).State → Prop}
    (keep : ∀ i env p a p', E env → I i p → (K i).step env p a = some p' → I i p')
    {s t : System K} {as : List (SystemAction Change K)}
    (changed : ∀ c, .change c ∈ as → ∀ env, E env → E (apply env c))
    (hE : E s.env) (hI : ∀ i, I i (s.part i)) (h : run (next apply) s as = some t) :
    E t.env ∧ ∀ i, I i (t.part i) := by
  induction as generalizing s with
  | nil =>
    rw [run_nil, Option.some.injEq] at h
    exact h ▸ ⟨hE, hI⟩
  | cons a as ih =>
    obtain ⟨u, hu, htail⟩ := (run_cons _).mp h
    have later : ∀ c, SystemAction.change c ∈ as → ∀ env, E env → E (apply env c) :=
      fun c hc => changed c (List.mem_cons_of_mem a hc)
    cases a with
    | change c =>
      rw [← Option.some.inj hu] at htail
      exact ih (s := { s with env := apply s.env c }) later (changed c List.mem_cons_self _ hE) hI htail
    | act i a =>
      obtain ⟨p, hp, rfl⟩ := act_cases hu
      refine ih (s := { s with part := Function.update s.part i p }) later hE ?_ htail
      exact (Function.forall_update_iff s.part fun j q => I j q).mpr
        ⟨keep i s.env (s.part i) a p hE (hI i) hp, fun j _ => hI j⟩

end

section
variable {ι Thread : Type} [DecidableEq ι] [DecidableEq Thread] {Op Ret : ι → Type}
  (O : ∀ i, AtomicObject Thread (Op i) (Ret i))

abbrev JointEvent (Thread : Type) (Op Ret : ι → Type) := Σ i, CallEvent Thread (Op i) (Ret i)

variable {O}

def jointMove (c : ∀ i, Configuration (O i)) (m : Σ i, Move (O i)) :
    Option (∀ i, Configuration (O i)) :=
  (move (c m.1) m.2).map fun d => Function.update c m.1 d

def jointShows (c : ∀ i, Configuration (O i)) (m : Σ i, Move (O i)) :
    List (JointEvent Thread Op Ret) :=
  (moveShows (c m.1) m.2).map (Sigma.mk m.1)

section
variable (O)

/-- The calls could have been made on atomic objects, all of them taking effect in one order. -/
def JointlyLinearizable (events : List (JointEvent Thread Op Ret)) : Prop :=
  ∃ moves c, run jointMove (fun i => Configuration.initial (O i)) moves = some c ∧
    trace jointMove jointShows (fun i => Configuration.initial (O i)) moves = events

end

theorem joint_of_moves {c : ∀ i, Configuration (O i)} {i : ι} {moves : List (Move (O i))}
    {d : Configuration (O i)} (h : run move (c i) moves = some d) :
    run jointMove c (moves.map (Sigma.mk i)) = some (Function.update c i d) ∧
      trace jointMove jointShows c (moves.map (Sigma.mk i)) =
        (trace move moveShows (c i) moves).map (Sigma.mk i) := by
  induction moves generalizing c with
  | nil =>
    rw [run_nil, Option.some.injEq] at h
    rw [← h, Function.update_eq_self]
    exact ⟨rfl, rfl⟩
  | cons m moves ih =>
    obtain ⟨e, he, htail⟩ := (run_cons _).mp h
    have taken : jointMove c ⟨i, m⟩ = some (Function.update c i e) := by
      simp only [jointMove, he, Option.map_some]
    have there : run move (Function.update c i e i) moves = some d := by
      rwa [Function.update_self]
    obtain ⟨later, seen⟩ := ih there
    rw [Function.update_idem] at later
    rw [Function.update_self] at seen
    refine ⟨(run_cons _).mpr ⟨_, taken, later⟩, ?_⟩
    rw [List.map_cons, trace_cons _ taken, seen, trace_cons _ he, List.map_append]
    rfl

end

section
variable {Env Change ι Thread : Type} [DecidableEq ι] [DecidableEq Thread] {Op Ret : ι → Type}
  {O : ∀ i, AtomicObject Thread (Op i) (Ret i)} {K : ι → Component Env}
  {apply : Env → Change → Env}

def systemShows (shows : ∀ i, Env → (K i).State → (K i).Action → List (CallEvent Thread (Op i) (Ret i)))
    (s : System K) : SystemAction Change K → List (JointEvent Thread Op Ret)
  | .change _ => []
  | .act i a => (shows i s.env (s.part i) a).map (Sigma.mk i)

/-- Parts that keep step with atomic objects, each by itself and whatever the environment does,
keep step with them together. -/
theorem jointly_linearizable_of_parts
    {shows : ∀ i, Env → (K i).State → (K i).Action → List (CallEvent Thread (Op i) (Ret i))}
    {R : ∀ i, Env → (K i).State → Configuration (O i) → Prop}
    (step : ∀ i env p a p' c, R i env p c → (K i).step env p a = some p' →
      ∃ moves d, run move c moves = some d ∧
        trace move moveShows c moves = shows i env p a ∧ R i env p' d)
    (change : ∀ i env p c ch, R i env p c → R i (apply env ch) p c)
    {s t : System K} {as : List (SystemAction Change K)}
    (start : ∀ i, R i s.env (s.part i) (.initial (O i))) (h : run (next apply) s as = some t) :
    JointlyLinearizable O (trace (next apply) (systemShows shows) s as) := by
  have together : ∀ (s : System K) (a : SystemAction Change K) (t : System K)
      (c : ∀ i, Configuration (O i)), (∀ i, R i s.env (s.part i) (c i)) →
      next apply s a = some t → ∃ moves d, run jointMove c moves = some d ∧
        trace jointMove jointShows c moves = systemShows shows s a ∧
          ∀ i, R i t.env (t.part i) (d i) := by
    intro s a t c hR hnext
    cases a with
    | change ch =>
      rw [← Option.some.inj hnext]
      exact ⟨[], c, rfl, rfl, fun i => change i _ _ _ ch (hR i)⟩
    | act i a =>
      obtain ⟨p, hp, rfl⟩ := act_cases hnext
      obtain ⟨moves, d, moved, seen, related⟩ := step i _ _ _ _ _ (hR i) hp
      obtain ⟨joint, shown⟩ := joint_of_moves moved
      refine ⟨_, _, joint, ?_, fun j => ?_⟩
      · rw [shown, seen]
        rfl
      · change R j s.env (Function.update s.part i p j) (Function.update c i d j)
        by_cases hj : j = i
        · subst hj
          rw [Function.update_self, Function.update_self]
          exact related
        · rw [Function.update_of_ne hj, Function.update_of_ne hj]
          exact hR j
  obtain ⟨moves, c, moved, seen, _⟩ := simulation_run together start h
  exact ⟨moves, c, moved, seen⟩

end

end ESPressioSystem.Components
