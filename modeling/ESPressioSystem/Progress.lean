import Mathlib.Order.Nat
import Mathlib.Data.List.GetD
import Mathlib.Data.Nat.Init
import ESPressioSystem.Transition

set_option autoImplicit false

/-!
# Executions without an end, and what they lead to

Fairness is a premise of the rules below, never a part of a machine.
-/
namespace ESPressioSystem.Progress
open Transition

section
variable {State Action : Type}

structure Execution (next : State → Action → Option State) (s : State) where
  state : ℕ → State
  action : ℕ → Action
  start : state 0 = s
  step : ∀ n, next (state n) (action n) = some (state (n + 1))

variable {next : State → Action → Option State} {s t : State}

/-- Every moment of `P` is followed by one of `Q`. -/
def Execution.LeadsTo (e : Execution next s) (P Q : State → Prop) : Prop :=
  ∀ n, P (e.state n) → ∃ m, n ≤ m ∧ Q (e.state m)

variable {e : Execution next s} {P Q R : State → Prop}

theorem stable_from (keep : ∀ s a t, P s → next s a = some t → P t) {n m : ℕ} (hnm : n ≤ m)
    (h : P (e.state n)) : P (e.state m) := by
  induction m, hnm using Nat.le_induction with
  | base => exact h
  | succ m _ ih => exact keep _ _ _ ih (e.step m)

theorem invariant_of_execution (keep : ∀ s a t, P s → next s a = some t → P t) (h : P s) (n : ℕ) :
    P (e.state n) :=
  stable_from keep (Nat.zero_le n) (e.start.symm ▸ h)

theorem leadsTo_trans (h : e.LeadsTo P Q) (h' : e.LeadsTo Q R) : e.LeadsTo P R := by
  intro n hn
  obtain ⟨m, hnm, hm⟩ := h n hn
  obtain ⟨l, hml, hl⟩ := h' m hm
  exact ⟨l, hnm.trans hml, hl⟩

theorem lasts_or (keep : ∀ s a t, P s → next s a = some t → P t ∨ Q t) {n m : ℕ} (hnm : n ≤ m)
    (hn : P (e.state n)) : P (e.state m) ∨ ∃ l, n ≤ l ∧ Q (e.state l) := by
  induction m, hnm using Nat.le_induction with
  | base => exact .inl hn
  | succ m hnm ih =>
    rcases ih with h | done
    · exact (keep _ _ _ h (e.step m)).imp id fun h => ⟨m + 1, hnm.trans (Nat.le_succ m), h⟩
    · exact .inr done

theorem leadsTo_unless {S : State → Prop} (keep : ∀ s a t, S s → next s a = some t → S t ∨ R t)
    (h : e.LeadsTo P Q) : e.LeadsTo (fun s => P s ∧ S s) fun s => (Q s ∧ S s) ∨ R s := by
  rintro n ⟨hn, hS⟩
  obtain ⟨m, hnm, hm⟩ := h n hn
  rcases lasts_or keep hnm hS with hS | ⟨l, hnl, hl⟩
  · exact ⟨m, hnm, .inl ⟨hm, hS⟩⟩
  · exact ⟨l, hnl, .inr hl⟩

def Execution.StronglyFair (e : Execution next s) (able : State → Prop) (mine : Action → Prop) : Prop :=
  ∀ n, (∀ m, n ≤ m → ∃ l, m ≤ l ∧ able (e.state l)) → ∃ m, n ≤ m ∧ mine (e.action m)

theorem leadsTo_of_chance {able : State → Prop} (mine : Action → Prop)
    (fair : e.StronglyFair able mine)
    (keep : ∀ s a t, P s → ¬ mine a → next s a = some t → P t ∨ Q t)
    (finish : ∀ s a t, P s → mine a → next s a = some t → Q t)
    (chance : ∀ n, (∀ m, n ≤ m → P (e.state m)) → ∃ m, n ≤ m ∧ able (e.state m)) :
    e.LeadsTo P Q := by
  intro n hn
  by_contra never
  have lasts : ∀ m, n ≤ m → P (e.state m) := by
    intro m hnm
    refine (lasts_or (fun s a t hs h => ?_) hnm hn).resolve_right never
    by_cases ha : mine a
    · exact .inr (finish s a t hs ha h)
    · exact keep s a t hs ha h
  have often : ∀ m, n ≤ m → ∃ l, m ≤ l ∧ able (e.state l) := fun m hnm =>
    chance m fun l hml => lasts l (hnm.trans hml)
  obtain ⟨m, hnm, turn⟩ := fair n often
  exact never ⟨m + 1, hnm.trans (Nat.le_succ m), finish _ _ _ (lasts m hnm) turn (e.step m)⟩

/-- `P` lasts until it turns into `Q`, at the latest when the awaited action is taken. -/
theorem leadsTo_of_turn (mine : Action → Prop)
    (keep : ∀ s a t, P s → ¬ mine a → next s a = some t → P t ∨ Q t)
    (finish : ∀ s a t, P s → mine a → next s a = some t → Q t)
    (fair : ∀ n, P (e.state n) → ∃ m, n ≤ m ∧ mine (e.action m)) : e.LeadsTo P Q := by
  have strong : e.StronglyFair P mine := by
    intro n often
    obtain ⟨l, hnl, hl⟩ := often n (Nat.le_refl n)
    obtain ⟨m, hlm, turn⟩ := fair l hl
    exact ⟨m, hnl.trans hlm, turn⟩
  exact leadsTo_of_chance mine strong keep finish fun n stays =>
    ⟨n, Nat.le_refl n, stays n (Nat.le_refl n)⟩

theorem leadsTo_of_rank (rank : State → ℕ)
    (drop : ∀ r, e.LeadsTo (fun s => P s ∧ rank s = r) fun s => Q s ∨ P s ∧ rank s < r) :
    e.LeadsTo P Q := by
  have descent : ∀ r n, P (e.state n) → rank (e.state n) = r → ∃ m, n ≤ m ∧ Q (e.state m) := by
    intro r
    induction r using Nat.strong_induction_on with
    | _ r ih =>
      intro n hn hr
      obtain ⟨m, hnm, done | ⟨hm, less⟩⟩ := drop r n ⟨hn, hr⟩
      · exact ⟨m, hnm, done⟩
      · obtain ⟨l, hml, hl⟩ := ih _ less m hm rfl
        exact ⟨l, hnm.trans hml, hl⟩
  exact fun n hn => descent _ n hn rfl

def Execution.stuttering {as : List Action} {a : Action} (h : run next s as = some t)
    (still : next t a = some t) : Execution next s where
  state n := (run next s (as.take n)).getD t
  action n := as.getD n a
  start := rfl
  step n := by
    rcases Nat.lt_or_ge n as.length with less | past
    · have split : as.take (n + 1) = as.take n ++ [as[n]] := List.take_succ_eq_append_getElem less
      have whole := h
      rw [← List.take_append_drop (n + 1) as, run_append, split, run_append] at whole
      obtain ⟨v, hv, _⟩ := Option.bind_eq_some_iff.mp whole
      obtain ⟨u, hu, taken⟩ := Option.bind_eq_some_iff.mp hv
      rw [split, run_append, hu, Option.bind_some, taken, Option.getD_some, Option.getD_some,
        List.getD_eq_getElem _ _ less]
      exact (run_singleton _ _ _).symm.trans taken
    · rw [List.take_of_length_le past, List.take_of_length_le (Nat.le_succ_of_le past), h,
        Option.getD_some, List.getD_eq_default _ _ past]
      exact still

theorem stuttering_past {as : List Action} {a : Action} (h : run next s as = some t)
    (still : next t a = some t) {n : ℕ} (past : as.length ≤ n) :
    (Execution.stuttering h still).state n = t := by
  change (run next s (as.take n)).getD t = t
  rw [List.take_of_length_le past, h, Option.getD_some]

end

section
variable {State Action State' Action' : Type} {next : State → Action → Option State}
  {next' : State' → Action' → Option State'} {s : State} {s' : State'}

/-- An execution of a whole, seen where a part is, is an execution of the part. -/
theorem execution_image (f : State → State') {R : State → Action → Action' → Prop}
    (step : ∀ s a t, next s a = some t → ∃ b, R s a b ∧ next' (f s) b = some (f t))
    (e : Execution next s) :
    ∃ e' : Execution next' (f s), (∀ n, e'.state n = f (e.state n)) ∧
      ∀ n, R (e.state n) (e.action n) (e'.action n) := by
  choose act related taken using fun n => step _ _ _ (e.step n)
  exact ⟨⟨fun n => f (e.state n), act, congrArg f e.start, taken⟩, fun _ => rfl, related⟩

theorem leadsTo_of_image {f : State → State'} {e : Execution next s} {e' : Execution next' s'}
    (same : ∀ n, e'.state n = f (e.state n)) {P Q : State' → Prop} (h : e'.LeadsTo P Q) :
    e.LeadsTo (fun s => P (f s)) fun s => Q (f s) := by
  intro n hn
  obtain ⟨m, hnm, hm⟩ := h n (by rwa [same n])
  rw [same m] at hm
  exact ⟨m, hnm, hm⟩

end

end ESPressioSystem.Progress
