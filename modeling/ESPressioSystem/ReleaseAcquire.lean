import Mathlib.Data.Finset.Basic
import Mathlib.Logic.Function.Basic

set_option autoImplicit false

/-!
# Atomic variables whose loads may return old values

Every step of a thread is an event. A thread knows the events that happen before its next step,
and the stores whose values it has seen. An atomic variable keeps all values it was given, in its
modification order: a load may return any of them that is not followed by a store the thread knows
of, and a store may take any place behind those. A release hands on what its thread knows, and an
acquire takes it over. No load returns a value that is stored only later.
-/
namespace ESPressioSystem.ReleaseAcquire

/-- Events, by their number. -/
abbrev View := Finset ℕ

/-- An update is stored by an operation that has read the message before it. -/
structure Message (Value : Type) where
  event : ℕ
  value : Value
  view : View
  update : Bool

def Message.known {Value : Type} (m : Message Value) : View := insert m.event m.view

/-- The modification order of an atomic variable, oldest value first. -/
abbrev Atomic (Value : Type) := List (Message Value)

section
variable {Value : Type}

/-- A variable that was initialised before every thread was started. -/
def initialised (event : ℕ) (v : Value) : Atomic Value := [⟨event, v, ∅, false⟩]

def Unseen (view : View) (later : List (Message Value)) : Prop := ∀ m ∈ later, m.event ∉ view

instance (view : View) (later : List (Message Value)) : Decidable (Unseen view later) :=
  inferInstanceAs (Decidable (∀ m ∈ later, m.event ∉ view))

/-- Nothing can be stored right before an update. -/
def Joined : List (Message Value) → Bool
  | [] => false
  | m :: _ => m.update

def load (x : Atomic Value) (view : View) (i : ℕ) : Option (Message Value) :=
  if Unseen view (x.drop (i + 1)) then x[i]? else none

def store (x : Atomic Value) (view : View) (i : ℕ) (m : Message Value) : Option (Atomic Value) :=
  if Unseen view (x.drop i) ∧ Joined (x.drop i) = false then some (x.take i ++ m :: x.drop i)
  else none

/-- A read-modify-write. It carries on what the message it reads hands on. -/
def exchange (x : Atomic Value) (view : View) (i event : ℕ) (v : Value) (released : View) :
    Option (Message Value × Atomic Value) :=
  if Joined (x.drop (i + 1)) then none
  else (load x view i).map fun m =>
    (m, x.take (i + 1) ++ ⟨event, v, m.known ∪ released, true⟩ :: x.drop (i + 1))

def newest (x : Atomic Value) (initial : Value) : Value := x.getLast?.elim initial Message.value

variable {x x' : Atomic Value} {view : View} {i event : ℕ} {m n : Message Value} {v : Value}
  {released : View}

@[simp] theorem newest_append (old : Atomic Value) (m : Message Value) (initial : Value) :
    newest (old ++ [m]) initial = m.value := by
  simp [newest]

theorem split_at (h : x[i]? = some m) : x = x.take i ++ m :: x.drop (i + 1) := by
  obtain ⟨hi, rfl⟩ := List.getElem?_eq_some_iff.mp h
  rw [List.cons_getElem_drop_succ, List.take_append_drop]

theorem load_cases (h : load x view i = some m) :
    ∃ before after, x = before ++ m :: after ∧ Unseen view after := by
  unfold load at h
  split at h
  · rename_i unseen
    exact ⟨_, _, split_at h, unseen⟩
  · cases h

theorem store_cases (h : store x view i m = some x') :
    ∃ before after, x = before ++ after ∧ x' = before ++ m :: after ∧ Unseen view after ∧
      Joined after = false := by
  unfold store at h
  split at h
  · rename_i allowed
    exact ⟨_, _, (List.take_append_drop i x).symm, (Option.some.inj h).symm, allowed⟩
  · cases h

theorem exchange_cases (h : exchange x view i event v released = some (m, x')) :
    ∃ before after, x = before ++ m :: after ∧ Unseen view after ∧ Joined after = false ∧
      x' = before ++ m :: ⟨event, v, m.known ∪ released, true⟩ :: after := by
  unfold exchange at h
  split at h
  · cases h
  · rename_i apart
    obtain ⟨n, hn, hpair⟩ := Option.map_eq_some_iff.mp h
    obtain ⟨rfl, rfl⟩ := Prod.mk.inj hpair
    unfold load at hn
    split at hn
    · rename_i unseen
      have here := split_at hn
      refine ⟨x.take i, x.drop (i + 1), here, unseen, Bool.eq_false_iff.mpr apart, ?_⟩
      have taken : x.take (i + 1) = x.take i ++ [n] := by
        rw [List.take_add_one, hn, Option.toList_some]
      rw [taken, List.append_assoc, List.singleton_append]
    · cases hn

theorem load_last (old : Atomic Value) (m : Message Value) (view : View) :
    load (old ++ [m]) view old.length = some m := by
  unfold load
  rw [if_pos (by simp [Unseen])]
  simp

theorem loads_newest (written : x ≠ []) (view : View) (initial : Value) :
    ∃ i m, load x view i = some m ∧ m.value = newest x initial := by
  obtain ⟨old, m, rfl⟩ := (List.eq_nil_or_concat x).resolve_left written
  rw [List.concat_eq_append]
  exact ⟨old.length, m, load_last old m view, (newest_append old m initial).symm⟩

theorem stores_newest (x : Atomic Value) (view : View) (m : Message Value) :
    ∃ i, store x view i m = some (x ++ [m]) := by
  refine ⟨x.length, ?_⟩
  unfold store
  rw [if_pos (by simp [Unseen, Joined])]
  simp

theorem exchanges_newest (written : x ≠ []) (view : View) (event : ℕ) (v : Value)
    (released : View) (initial : Value) : ∃ i m, exchange x view i event v released =
      some (m, x ++ [⟨event, v, m.known ∪ released, true⟩]) ∧ m.value = newest x initial := by
  obtain ⟨old, m, rfl⟩ := (List.eq_nil_or_concat x).resolve_left written
  rw [List.concat_eq_append]
  refine ⟨old.length, m, ?_, (newest_append old m initial).symm⟩
  unfold exchange
  rw [load_last, if_neg (by simp [Joined])]
  simp [List.take_of_length_le]

theorem load_newest (h : load x view i = some m) (known : ∀ n ∈ x, n.event ∈ view)
    (initial : Value) : (∃ old, x = old ++ [m]) ∧ newest x initial = m.value := by
  obtain ⟨before, after, rfl, unseen⟩ := load_cases h
  cases after with
  | nil => exact ⟨⟨before, rfl⟩, newest_append before m initial⟩
  | cons n later =>
    have seen := known n (by simp)
    exact absurd seen (unseen n List.mem_cons_self)

theorem store_newest (h : store x view i m = some x') (known : ∀ n ∈ x, n.event ∈ view) :
    x' = x ++ [m] := by
  obtain ⟨before, after, rfl, rfl, unseen, _⟩ := store_cases h
  cases after with
  | nil => rw [List.append_nil]
  | cons n later =>
    have seen := known n (by simp)
    exact absurd seen (unseen n List.mem_cons_self)

/-- A variable that is null until it is given its value. -/
def Once (x : Atomic (Option Value)) : Prop := ∀ m ∈ x.dropLast, m.value = none

theorem mem_dropLast_or_last {x : Atomic Value} (hm : m ∈ x) : m ∈ x.dropLast ∨ x.getLast? = some m := by
  cases hlast : x.getLast? with
  | none =>
    rw [List.getLast?_eq_none_iff.mp hlast] at hm
    cases hm
  | some n =>
    have split := List.dropLast_append_getLast? n hlast
    rw [← split] at hm
    rcases List.mem_append.mp hm with before | last
    · exact .inl before
    · exact .inr (by rw [List.mem_singleton.mp last])

theorem Once.newest {x : Atomic (Option Value)} {m : Message (Option Value)} (h : Once x)
    (hm : m ∈ x) (value : m.value = some v) : newest x none = some v := by
  rcases mem_dropLast_or_last hm with before | last
  · rw [h m before] at value
    cases value
  · rw [ReleaseAcquire.newest, last]
    exact value

theorem Once.all_null {x : Atomic (Option Value)} {m : Message (Option Value)} (h : Once x)
    (unset : ReleaseAcquire.newest x none = none) (hm : m ∈ x) : m.value = none := by
  cases value : m.value with
  | none => rfl
  | some v => cases unset.symm.trans (h.newest hm value)

theorem Once.store {x : Atomic (Option Value)} (h : Once x)
    (unset : ReleaseAcquire.newest x none = none) (m : Message (Option Value)) : Once (x ++ [m]) := by
  intro n hn
  rw [List.dropLast_concat] at hn
  exact h.all_null unset hn

theorem load_mem (h : load x view i = some m) : m ∈ x := by
  obtain ⟨before, after, rfl, _⟩ := load_cases h
  simp

end

/-- What threads know, and the number of the next event. -/
structure Threads (Thread : Type) where
  clock : ℕ
  view : Thread → View

section
variable {Thread : Type} [DecidableEq Thread]

/-- A step of a thread, which takes over what the step lets it know. -/
def Threads.step (s : Threads Thread) (t : Thread) (learnt : View) : Threads Thread where
  clock := s.clock + 1
  view := Function.update s.view t (insert s.clock (s.view t ∪ learnt))

variable {s : Threads Thread} {t u : Thread} {learnt : View}

theorem Threads.view_self :
    (s.step t learnt).view t = insert s.clock (s.view t ∪ learnt) := Function.update_self _ _ _

theorem Threads.view_other (h : u ≠ t) : (s.step t learnt).view u = s.view u :=
  Function.update_of_ne h _ _

theorem Threads.view_grows (s : Threads Thread) (t : Thread) (learnt : View) (u : Thread) :
    s.view u ⊆ (s.step t learnt).view u := by
  by_cases h : u = t
  · subst h
    rw [view_self]
    exact (Finset.subset_union_left).trans (Finset.subset_insert _ _)
  · rw [view_other h]

theorem Threads.learnt_subset : learnt ⊆ (s.step t learnt).view t := by
  rw [view_self]
  exact (Finset.subset_union_right).trans (Finset.subset_insert _ _)

theorem Threads.clock_mem : s.clock ∈ (s.step t learnt).view t := by
  rw [view_self]
  exact Finset.mem_insert_self _ _

end

/-- The event has taken place, and happens before what comes next. -/
def Known (event : Option ℕ) (view : View) : Prop := ∃ e ∈ event, e ∈ view

instance (event : Option ℕ) (view : View) : Decidable (Known event view) :=
  inferInstanceAs (Decidable (∃ e ∈ event, e ∈ view))

theorem Known.mono {event : Option ℕ} {view view' : View} (h : Known event view)
    (grow : view ⊆ view') : Known event view' := by
  obtain ⟨e, he, known⟩ := h
  exact ⟨e, he, grow known⟩

/-- The accesses so far of an object that is not atomic. -/
structure Plain where
  reads : View
  writes : View

def Plain.untouched : Plain := ⟨∅, ∅⟩
def Plain.read (x : Plain) (event : ℕ) : Plain := { x with reads := insert event x.reads }
def Plain.write (x : Plain) (event : ℕ) : Plain := { x with writes := insert event x.writes }

/-- A read conflicts with every write, and must know of all of them. -/
def Plain.ReadOrdered (x : Plain) (view : View) : Prop := x.writes ⊆ view

def Plain.WriteOrdered (x : Plain) (view : View) : Prop := x.reads ⊆ view ∧ x.writes ⊆ view

end ESPressioSystem.ReleaseAcquire
