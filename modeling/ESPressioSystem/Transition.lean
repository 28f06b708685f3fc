import Mathlib.Data.List.Basic

set_option autoImplicit false

/-!
# Executions of a machine whose steps may be refused

A machine is a function `next : State → Action → Option State`; the action carries
every choice its surroundings make. An execution is a list of actions, so all
interleavings of any number of parties are the lists over their actions.
-/
namespace ESPressioSystem.Transition

section
variable {State Action : Type} (next : State → Action → Option State)

def run : State → List Action → Option State
  | s, [] => some s
  | s, a :: as => (next s a).bind fun t => run t as

/-- Every action of the execution meets `C` in the state in which it is taken. -/
def Meets (C : State → Action → Prop) : State → List Action → Prop
  | _, [] => True
  | s, a :: as => C s a ∧ ∀ t ∈ next s a, Meets C t as

instance decidableMeets {C : State → Action → Prop} [∀ s a, Decidable (C s a)] :
    ∀ s as, Decidable (Meets next C s as)
  | _, [] => isTrue trivial
  | s, a :: as =>
    have _tail : ∀ t, Decidable (Meets next C t as) := fun t => decidableMeets t as
    inferInstanceAs (Decidable (C s a ∧ ∀ t ∈ next s a, Meets next C t as))

def Throughout (P : State → Prop) : State → List Action → Prop
  | s, [] => P s
  | s, a :: as => P s ∧ ∀ t ∈ next s a, Throughout P t as

@[simp] theorem run_nil (s : State) : run next s [] = some s := rfl

theorem run_cons {s u : State} {a : Action} {as : List Action} :
    run next s (a :: as) = some u ↔ ∃ t, next s a = some t ∧ run next t as = some u := by
  simp only [run, Option.bind_eq_some_iff]

theorem run_singleton (s : State) (a : Action) : run next s [a] = next s a := by
  cases h : next s a <;> simp [run, h]

theorem run_append (s : State) (as bs : List Action) :
    run next s (as ++ bs) = (run next s as).bind fun t => run next t bs := by
  induction as generalizing s with
  | nil => rfl
  | cons a as ih =>
    simp only [List.cons_append, run, Option.bind_assoc]
    congr 1
    funext t
    exact ih t

theorem run_trans {s t u : State} {as bs : List Action} (h : run next s as = some t)
    (h' : run next t bs = some u) : run next s (as ++ bs) = some u := by
  rw [run_append, h, Option.bind_some, h']

variable {next}

/-- What every step that meets `C` preserves holds at the end of an execution
whose steps all meet it. -/
theorem invariant_of_meets {C : State → Action → Prop} {I : State → Prop}
    (step : ∀ s a t, C s a → I s → next s a = some t → I t)
    {s t : State} {as : List Action} (hs : I s) (hC : Meets next C s as)
    (h : run next s as = some t) : I t := by
  induction as generalizing s with
  | nil =>
    rw [run_nil, Option.some.injEq] at h
    exact h ▸ hs
  | cons a as ih =>
    obtain ⟨u, hu, htail⟩ := (run_cons next).mp h
    exact ih (step s a u hC.1 hs hu) (hC.2 u hu) htail

theorem meets_of_forall {C : State → Action → Prop} (hC : ∀ s a, C s a)
    (s : State) (as : List Action) : Meets next C s as := by
  induction as generalizing s with
  | nil => trivial
  | cons a as ih => exact ⟨hC s a, fun t _ => ih t⟩

theorem meets_and {C D : State → Action → Prop} {s : State} {as : List Action}
    (hC : Meets next C s as) (hD : Meets next D s as) : Meets next (fun s a => C s a ∧ D s a) s as := by
  induction as generalizing s with
  | nil => trivial
  | cons a as ih => exact ⟨⟨hC.1, hD.1⟩, fun t ht => ih (hC.2 t ht) (hD.2 t ht)⟩

theorem meets_of_invariant {C D : State → Action → Prop} {I : State → Prop}
    (keep : ∀ s a t, D s a → I s → next s a = some t → I t) (give : ∀ s a, D s a → I s → C s a)
    {s : State} {as : List Action} (hs : I s) (hD : Meets next D s as) : Meets next C s as := by
  induction as generalizing s with
  | nil => trivial
  | cons a as ih =>
    exact ⟨give s a hD.1 hs, fun t ht => ih (keep s a t hD.1 hs ht) (hD.2 t ht)⟩

theorem meets_of_actions {C : Action → Prop} {as : List Action} (hC : ∀ a ∈ as, C a) (s : State) :
    Meets next (fun _ => C) s as := by
  induction as generalizing s with
  | nil => trivial
  | cons a as ih =>
    exact ⟨hC a List.mem_cons_self, fun t _ => ih (fun b hb => hC b (List.mem_cons_of_mem a hb)) t⟩

theorem invariant_of_run {I : State → Prop} (step : ∀ s a t, I s → next s a = some t → I t)
    {s t : State} {as : List Action} (hs : I s) (h : run next s as = some t) : I t :=
  invariant_of_meets (C := fun _ _ => True) (fun s a t _ => step s a t) hs
    (meets_of_forall (fun _ _ => trivial) s as) h

/-- If a step keeps `P` exactly when it meets `C`, then so does an execution. -/
theorem throughout_iff_meets {C D : State → Action → Prop} {I P : State → Prop}
    (keep : ∀ s a t, D s a → I s → next s a = some t → I t)
    (step : ∀ s a t, D s a → I s → P s → next s a = some t → (P t ↔ C s a))
    {s t : State} {as : List Action} (hD : Meets next D s as) (hI : I s) (hP : P s)
    (h : run next s as = some t) : Throughout next P s as ↔ Meets next C s as := by
  induction as generalizing s with
  | nil => exact iff_of_true hP trivial
  | cons a as ih =>
    obtain ⟨u, hu, htail⟩ := (run_cons next).mp h
    have hstep := step s a u hD.1 hI hP hu
    have rest := fun hPu => ih (hD.2 u hu) (keep s a u hD.1 hI hu) hPu htail
    have only : ∀ v ∈ next s a, v = u := fun v hv => Option.some.inj (hv.symm.trans hu)
    constructor
    · rintro ⟨_, later⟩
      have hPu : P u := by
        have head := later u hu
        cases as with
        | nil => exact head
        | cons b bs => exact head.1
      exact ⟨hstep.mp hPu, fun v hv => only v hv ▸ (rest hPu).mp (later u hu)⟩
    · rintro ⟨hC, later⟩
      exact ⟨hP, fun v hv => only v hv ▸ (rest (hstep.mpr hC)).mpr (later u hu)⟩

/-- A reflexive and transitive relation that every step from a state of the invariant
satisfies relates the ends of every execution from such a state. -/
theorem relation_of_run {I : State → Prop} {R : State → State → Prop}
    (refl : ∀ s, R s s) (trans : ∀ s t u, R s t → R t u → R s u)
    (keep : ∀ s a t, I s → next s a = some t → I t)
    (step : ∀ s a t, I s → next s a = some t → R s t)
    {s t : State} {as : List Action} (hs : I s) (h : run next s as = some t) : R s t := by
  induction as generalizing s with
  | nil =>
    rw [run_nil, Option.some.injEq] at h
    exact h ▸ refl s
  | cons a as ih =>
    obtain ⟨u, hu, htail⟩ := (run_cons next).mp h
    exact trans s u t (step s a u hs hu) (ih (keep s a u hs hu) htail)

section
variable (next)

def occurrences (C : State → Action → Bool) : State → List Action → ℕ
  | _, [] => 0
  | s, a :: as => (C s a).toNat + (next s a).elim 0 fun t => occurrences C t as

end

theorem occurrences_cons {C : State → Action → Bool} {s t : State} {a : Action} (as : List Action)
    (h : next s a = some t) :
    occurrences next C s (a :: as) = (C s a).toNat + occurrences next C t as := by
  rw [occurrences, h, Option.elim_some]

theorem occurrences_mono {C D : State → Action → Bool} (hCD : ∀ s a, C s a = true → D s a = true)
    (s : State) (as : List Action) : occurrences next C s as ≤ occurrences next D s as := by
  induction as generalizing s with
  | nil => exact Nat.le_refl 0
  | cons a as ih =>
    have head : (C s a).toNat ≤ (D s a).toNat := by
      cases hC : C s a with
      | false => exact Nat.zero_le _
      | true => exact Nat.le_of_eq (by rw [hCD s a hC])
    cases h : next s a with
    | none => simpa only [occurrences, h, Option.elim_none, Nat.add_zero] using head
    | some t =>
      rw [occurrences_cons as h, occurrences_cons as h]
      have tail := ih t
      omega

theorem balance_of_run {C : State → Action → Bool} {I : State → Prop} {f : State → ℕ}
    (keep : ∀ s a t, I s → next s a = some t → I t)
    (step : ∀ s a t, I s → next s a = some t → f t = f s + (C s a).toNat)
    {s t : State} {as : List Action} (hs : I s) (h : run next s as = some t) :
    f t = f s + occurrences next C s as := by
  induction as generalizing s with
  | nil =>
    rw [run_nil, Option.some.injEq] at h
    rw [h, occurrences, Nat.add_zero]
  | cons a as ih =>
    obtain ⟨u, hu, htail⟩ := (run_cons next).mp h
    have first := step s a u hs hu
    have later := ih (keep s a u hs hu) htail
    rw [occurrences_cons as hu]
    omega

/-- Steps of the kind `C` are paid for out of `f`, to which a step of the kind `D` adds at
most `c`. -/
theorem budget_of_run {C D : State → Action → Bool} {f : State → ℕ} {c : ℕ}
    (step : ∀ s a t, next s a = some t → (C s a).toNat + f t ≤ f s + c * (D s a).toNat)
    {s t : State} {as : List Action} (h : run next s as = some t) :
    occurrences next C s as + f t ≤ f s + c * occurrences next D s as := by
  induction as generalizing s with
  | nil =>
    rw [run_nil, Option.some.injEq] at h
    simp [h, occurrences]
  | cons a as ih =>
    obtain ⟨u, hu, htail⟩ := (run_cons next).mp h
    have first := step s a u hu
    have later := ih htail
    rw [occurrences_cons as hu, occurrences_cons as hu, Nat.mul_add]
    omega

end

section
variable {State Action State' Action' : Type} {next : State → Action → Option State}
  {next' : State' → Action' → Option State'}

theorem run_map (f : State → State') (g : Action → Action')
    (step : ∀ s a t, next s a = some t → next' (f s) (g a) = some (f t))
    {s t : State} {as : List Action} (h : run next s as = some t) :
    run next' (f s) (as.map g) = some (f t) := by
  induction as generalizing s with
  | nil =>
    rw [run_nil, Option.some.injEq] at h
    exact h ▸ rfl
  | cons a as ih =>
    obtain ⟨u, hu, htail⟩ := (run_cons next).mp h
    exact (run_cons next').mpr ⟨f u, step s a u hu, ih htail⟩

end

end ESPressioSystem.Transition
