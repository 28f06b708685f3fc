import Mathlib.Data.Multiset.Count
import ESPressioSystem.Ledger

set_option autoImplicit false

/-!
# Objects that threads share: locks and binary semaphores

An object is given by the calls it may complete: `perform s t op ret` is the state after
the call of `op` by `t` has returned `ret`, and `none` where it cannot return so from `s`.
A blocked call is one that has no result yet.
-/
namespace ESPressioSystem.SharedObject
open Transition Ledger

structure Primitive (Thread : Type) where
  State : Type
  Op : Type
  Ret : Type
  init : State
  perform : State → Thread → Op → Ret → Option State

structure Call (Thread Op Ret : Type) where
  thread : Thread
  op : Op
  ret : Ret
  deriving DecidableEq

abbrev Primitive.History {Thread : Type} (p : Primitive Thread) := List (Call Thread p.Op p.Ret)

def Primitive.next {Thread : Type} (p : Primitive Thread) (s : p.State)
    (c : Call Thread p.Op p.Ret) : Option p.State :=
  p.perform s c.thread c.op c.ret

/-- The calls of the history, in this order, are calls of one object made afresh. -/
def Primitive.Legal {Thread : Type} (p : Primitive Thread) (history : p.History) : Prop :=
  ∃ s, run p.next p.init history = some s

section
variable {Thread Mode : Type} [DecidableEq Thread] [DecidableEq Mode]

inductive LockOp (Mode : Type) where
  | lock (m : Mode)
  | tryLock (m : Mode)
  | unlock (m : Mode)
  deriving DecidableEq, Repr

/-- A lock keeps the holds it has granted; `admits` says which further hold it may grant.
A failed `tryLock` changes nothing and may happen at any time, as the C++ standard allows. -/
def lockPerform (admits : Multiset (Thread × Mode) → Thread × Mode → Bool)
    (held : Multiset (Thread × Mode)) (t : Thread) :
    LockOp Mode → Bool → Option (Multiset (Thread × Mode))
  | .lock m, true => post admits held (.acquire (t, m))
  | .tryLock m, true => post admits held (.acquire (t, m))
  | .tryLock _, false => some held
  | .unlock m, true => post admits held (.release (t, m))
  | _, false => none

def lockPrimitive (admits : Multiset (Thread × Mode) → Thread × Mode → Bool) : Primitive Thread where
  State := Multiset (Thread × Mode)
  Op := LockOp Mode
  Ret := Bool
  init := 0
  perform := lockPerform admits

def lockEntry (c : Call Thread (LockOp Mode) Bool) : Option (Entry (Thread × Mode)) :=
  match c.op, c.ret with
  | .lock m, true => some (.acquire (c.thread, m))
  | .tryLock m, true => some (.acquire (c.thread, m))
  | .unlock m, true => some (.release (c.thread, m))
  | _, false => none

def lockEntries (history : List (Call Thread (LockOp Mode) Bool)) : List (Entry (Thread × Mode)) :=
  history.filterMap lockEntry

/-- In this history the thread has acquired the mode more often than released it. -/
def Holds (history : List (Call Thread (LockOp Mode) Bool)) (t : Thread) (m : Mode) : Prop :=
  releases (t, m) (lockEntries history) < acquisitions (t, m) (lockEntries history)

instance decidableHolds (history : List (Call Thread (LockOp Mode) Bool)) (t : Thread) (m : Mode) :
    Decidable (Holds history t m) :=
  inferInstanceAs (Decidable (_ < _))

variable {admits : Multiset (Thread × Mode) → Thread × Mode → Bool}

theorem lockPerform_post {held held' : Multiset (Thread × Mode)}
    {c : Call Thread (LockOp Mode) Bool}
    (h : lockPerform admits held c.thread c.op c.ret = some held') :
    run (post admits) held (lockEntry c).toList = some held' := by
  obtain ⟨t, op, ret⟩ := c
  cases op <;> cases ret <;> simp_all [lockPerform, lockEntry, run_singleton]

theorem run_lock_entries {held held' : Multiset (Thread × Mode)}
    {history : List (Call Thread (LockOp Mode) Bool)}
    (h : run (lockPrimitive admits).next held history = some held') :
    run (post admits) held (lockEntries history) = some held' := by
  induction history generalizing held with
  | nil => exact h
  | cons c history ih =>
    obtain ⟨mid, hmid, htail⟩ := (run_cons _).mp h
    have hsplit : lockEntries (c :: history) = (lockEntry c).toList ++ lockEntries history := by
      unfold lockEntries
      cases hc : lockEntry c <;> simp [hc]
    rw [hsplit]
    exact run_trans _ (lockPerform_post hmid) (ih htail)

theorem holds_iff_mem {held : Multiset (Thread × Mode)}
    {history : List (Call Thread (LockOp Mode) Bool)}
    (h : run (lockPrimitive admits).next (lockPrimitive admits).init history = some held)
    (t : Thread) (m : Mode) :
    Holds history t m ↔ (t, m) ∈ held :=
  (mem_iff_releases_lt (run_lock_entries h) (t, m)).symm

end

section
variable {Thread Mode : Type} [DecidableEq Thread] [DecidableEq Mode]

/-- At most one hold at a time. -/
def admitsExclusive (held : Multiset (Thread × Mode)) (_ : Thread × Mode) : Bool :=
  decide (held = 0)

/-- Any number of holds, all of one thread. -/
def admitsRecursive (held : Multiset (Thread × Mode)) (k : Thread × Mode) : Bool :=
  decide (∀ j ∈ held, j.1 = k.1)

inductive Access where
  | exclusive
  | shared
  deriving DecidableEq, Repr

def admitsReadWrite (held : Multiset (Thread × Access)) (k : Thread × Access) : Bool :=
  match k.2 with
  | .exclusive => decide (held = 0)
  | .shared => decide (∀ j ∈ held, j.2 = .shared)

theorem exclusive_single {held : Multiset (Thread × Mode)} {entries : List (Entry (Thread × Mode))}
    (h : run (post admitsExclusive) 0 entries = some held) : ∀ k ∈ held, held = {k} := by
  refine invariant_of_run (I := fun held : Multiset (Thread × Mode) => ∀ k ∈ held, held = {k}) ?_
    (by simp) h
  intro s e u hs hsu
  cases e with
  | acquire a =>
    obtain ⟨ha, rfl⟩ := post_acquire hsu
    have h0 : s = 0 := of_decide_eq_true ha
    subst h0
    intro k hk
    rw [Multiset.mem_singleton.mp hk]
    rfl
  | release a =>
    obtain ⟨_, rfl⟩ := post_release hsu
    have honly := hs a (Multiset.mem_cons_self a u)
    have hzero : u = 0 := ((Multiset.singleton_eq_cons_iff u).mp honly.symm).2
    subst hzero
    exact fun _ hk => nomatch hk

theorem recursive_single {held : Multiset (Thread × Mode)} {entries : List (Entry (Thread × Mode))}
    (h : run (post admitsRecursive) 0 entries = some held) :
    ∀ j ∈ held, ∀ k ∈ held, j.1 = k.1 := by
  refine invariant_of_run (I := fun held : Multiset (Thread × Mode) =>
    ∀ j ∈ held, ∀ k ∈ held, j.1 = k.1) ?_ (by simp) h
  intro s e t hs hst
  cases e with
  | acquire a =>
    obtain ⟨ha, rfl⟩ := post_acquire hst
    have hall : ∀ j ∈ s, j.1 = a.1 := of_decide_eq_true ha
    intro j hj k hk
    have toOwner : ∀ i ∈ a ::ₘ s, i.1 = a.1 := by
      intro i hi
      rcases Multiset.mem_cons.mp hi with rfl | hi
      · rfl
      · exact hall i hi
    exact (toOwner j hj).trans (toOwner k hk).symm
  | release a =>
    obtain ⟨_, rfl⟩ := post_release hst
    intro j hj k hk
    exact hs j (Multiset.mem_cons_of_mem hj) k (Multiset.mem_cons_of_mem hk)

theorem readWrite_writer {held : Multiset (Thread × Access)}
    {entries : List (Entry (Thread × Access))}
    (h : run (post admitsReadWrite) 0 entries = some held) :
    ∀ t, (t, Access.exclusive) ∈ held → held = {(t, Access.exclusive)} := by
  refine invariant_of_run (I := fun held : Multiset (Thread × Access) =>
    ∀ t, (t, Access.exclusive) ∈ held → held = {(t, Access.exclusive)}) ?_ (by simp) h
  intro s e u hs hsu
  cases e with
  | acquire a =>
    obtain ⟨ha, rfl⟩ := post_acquire hsu
    obtain ⟨b, access⟩ := a
    intro t ht
    cases access with
    | exclusive =>
      have h0 : s = 0 := of_decide_eq_true ha
      subst h0
      have hb := Multiset.mem_singleton.mp ht
      rw [← hb]
      rfl
    | shared =>
      have hall : ∀ j ∈ s, j.2 = .shared := of_decide_eq_true ha
      rcases Multiset.mem_cons.mp ht with hb | ht
      · cases hb
      · cases hall _ ht
  | release a =>
    obtain ⟨hmem, rfl⟩ := post_release hsu
    intro t ht
    have honly := hs t (Multiset.mem_cons_of_mem ht)
    have hzero : u = 0 := ((Multiset.singleton_eq_cons_iff u).mp honly.symm).2
    subst hzero
    cases ht

end

section
variable {Thread : Type}

/-- A flag that is set exactly while one thread, and one only, owns it. -/
structure Token (busy : Bool) (owns : Thread → Prop) : Prop where
  held : busy = true ↔ ∃ t, owns t
  single : ∀ t u, owns t → owns u → t = u

variable {busy : Bool} {owns owns' : Thread → Prop}

theorem Token.keep (h : Token busy owns) (same : ∀ u, owns' u ↔ owns u) : Token busy owns' := by
  have he : owns' = owns := funext fun u => propext (same u)
  exact he ▸ h

theorem Token.take (h : Token false owns) {t : Thread} (ht : owns' t)
    (other : ∀ u, u ≠ t → (owns' u ↔ owns u)) : Token true owns' := by
  have free : ∀ u, ¬ owns u := fun u hu => absurd (h.held.mpr ⟨u, hu⟩) (by decide)
  have only : ∀ u, owns' u → u = t := by
    intro u hu
    by_contra hne
    exact free u ((other u hne).mp hu)
  exact ⟨⟨fun _ => ⟨t, ht⟩, fun _ => rfl⟩, fun a b ha hb => (only a ha).trans (only b hb).symm⟩

theorem Token.drop (h : Token busy owns) {t : Thread} (ht : owns t) (left : ¬ owns' t)
    (other : ∀ u, u ≠ t → (owns' u ↔ owns u)) : Token false owns' := by
  have none : ∀ u, ¬ owns' u := by
    intro u hu
    by_cases hut : u = t
    · exact left (hut ▸ hu)
    · exact hut (h.single u t ((other u hut).mp hu) ht)
  exact ⟨⟨fun hf => absurd hf (by decide), fun ⟨u, hu⟩ => absurd hu (none u)⟩,
    fun a _ ha _ => absurd ha (none a)⟩

inductive SemaphoreOp where
  | give
  | take
  | reset
  deriving DecidableEq, Repr

/-- A binary semaphore; a call that reports failure has changed nothing. -/
def semaphorePerform (available : Bool) : SemaphoreOp → Bool → Option Bool
  | .give, true => some true
  | .take, true => if available then some false else none
  | .reset, true => some false
  | _, false => some available

def successes (op : SemaphoreOp) (calls : List (SemaphoreOp × Bool)) : ℕ := calls.count (op, true)

def semaphoreNext (available : Bool) (c : SemaphoreOp × Bool) : Option Bool :=
  semaphorePerform available c.1 c.2

theorem semaphore_step {s t : Bool} {c : SemaphoreOp × Bool} (h : semaphoreNext s c = some t) :
    successes .take [c] + t.toNat ≤ s.toNat + successes .give [c] := by
  obtain ⟨op, ret⟩ := c
  cases s <;> cases op <;> cases ret <;>
    simp_all [semaphoreNext, semaphorePerform, successes]

theorem semaphore_takes {s t : Bool} {calls : List (SemaphoreOp × Bool)}
    (h : run semaphoreNext s calls = some t) :
    successes .take calls + t.toNat ≤ s.toNat + successes .give calls := by
  induction calls generalizing s with
  | nil =>
    rw [run_nil, Option.some.injEq] at h
    subst h
    simp [successes]
  | cons c calls ih =>
    obtain ⟨mid, hmid, htail⟩ := (run_cons _).mp h
    have hstep := semaphore_step hmid
    have hrest := ih htail
    have hsplit : ∀ op, successes op (c :: calls) = successes op [c] + successes op calls := by
      intro op
      unfold successes
      rw [← List.count_append, List.singleton_append]
    rw [hsplit, hsplit]
    omega

end

end ESPressioSystem.SharedObject
