import ESPressioSystem.ContainerStorage
import ESPressioSystem.UniqueOwnershipLedger

set_option autoImplicit false

/-!
# Containers and owning pointers that share the installed provider

Any number of container families and sets of owning pointers, of any element types and
policies, take their steps in any order; each step may change what the others find installed.
-/
namespace ESPressioSystem.MemoryWorld
open Transition Ledger MemoryProvider MemoryAllocator

/-- The same memory, had other calls been made before. -/
def after (earlier : List ProviderCall) (m : Memory) : Memory :=
  { m with calls := earlier ++ m.calls }

section
variable (earlier : List ProviderCall) (m : Memory)

@[simp] theorem after_slot : (after earlier m).slot = m.slot := rfl

@[simp] theorem after_change (changes : List ProviderChange) :
    (after earlier m).change changes = after earlier (m.change changes) := rfl

@[simp] theorem after_allocate (request : Request) (answer : Answer) :
    (after earlier m).allocate request answer = after earlier (m.allocate request answer) := by
  simp only [after, Memory.allocate, List.append_assoc]

@[simp] theorem after_deallocate (block : Block) :
    (after earlier m).deallocate block = after earlier (m.deallocate block) := by
  simp only [after, Memory.deallocate, List.append_assoc]

end

section
variable {sizeMax : ℕ} {T : ElementType sizeMax} {P : MemoryPolicy}

theorem allocate_after (earlier : List ProviderCall) (a : Allocator T P) (count : ℕ)
    (between : List ProviderChange) (answer : Answer) (m : Memory) :
    a.allocate count between answer (after earlier m) =
      { a.allocate count between answer m with
        memory := after earlier (a.allocate count between answer m).memory } := by
  by_cases h : count > sizeMax / T.size
  · rw [allocate_oversized h, allocate_oversized h]
  · cases answer with
    | pointer address => simp only [allocate_pointer h, after_change, after_allocate, after_slot]
    | exception => simp only [allocate_exception h, after_change, after_allocate, after_slot]

@[simp] theorem deallocate_after (earlier : List ProviderCall) (a : Allocator T P)
    (pointer count : ℕ) (m : Memory) :
    a.deallocate pointer count (after earlier m) = after earlier (a.deallocate pointer count m) := by
  by_cases h : pointer = 0
  · subst h
    rw [deallocate_null, deallocate_null]
  · simp only [deallocate_pointer h, after_deallocate, after_slot]

end

section
open ContainerStorage
variable {sizeMax : ℕ} {T : ElementType sizeMax} {P : MemoryPolicy}

theorem refill_after (earlier : List ProviderCall) (c : Container T P) (f : Fill) (m : Memory) :
    c.refill f (after earlier m) =
      { c.refill f m with memory := after earlier (c.refill f m).memory } := by
  simp only [Container.refill, allocate_after]
  split
  · rfl
  · split <;> simp only [after_change, deallocate_after]

variable {ι : Type} [DecidableEq ι]

def familyAfter (earlier : List ProviderCall) (s : Family T P ι) : Family T P ι :=
  { s with memory := after earlier s.memory }

/-- What containers do does not depend on the calls made before. -/
theorem next_familyAfter (earlier : List ProviderCall) (s : Family T P ι)
    (a : ContainerStorage.Action ι) :
    ContainerStorage.next (familyAfter earlier s) a =
      (ContainerStorage.next s a).map (familyAfter earlier) := by
  cases a with
  | construct i provider =>
    simp only [ContainerStorage.next, ContainerStorage.construct, familyAfter, Family.put]
    cases s.containers i <;> rfl
  | destroy i =>
    simp only [ContainerStorage.next, familyAfter, Family.put, Container.drain, deallocate_after]
    cases s.containers i <;> rfl
  | copyConstruct i j fill =>
    simp only [ContainerStorage.next, copyConstruct, familyAfter, Family.put, refill_after]
    cases s.containers i <;> cases s.containers j <;> cases fill <;> rfl
  | moveConstruct i j =>
    simp only [ContainerStorage.next, ContainerStorage.moveConstruct, familyAfter, Family.take, Family.put]
    cases s.containers i <;> cases s.containers j <;> rfl
  | copyAssign i j fill =>
    simp only [ContainerStorage.next, refill, familyAfter, Family.put, refill_after]
    cases s.containers i <;> cases fill <;> cases s.containers j <;> rfl
  | moveAssign i j =>
    simp only [ContainerStorage.next, ContainerStorage.moveAssign, release, familyAfter, Family.take,
      Family.put, Container.drain, deallocate_after]
    cases hj : s.containers j with
    | none => rfl
    | some d =>
      simp only [Option.map_some, Option.bind_some]
      cases Function.update s.containers j (some d.emptied) i <;> rfl
  | swap i j =>
    simp only [ContainerStorage.next, ContainerStorage.swap, familyAfter, Family.put]
    cases s.containers i <;> cases s.containers j <;> rfl
  | refill i f =>
    simp only [ContainerStorage.next, refill, familyAfter, Family.put, refill_after]
    cases s.containers i <;> rfl
  | release i =>
    simp only [ContainerStorage.next, release, familyAfter, Family.put, Container.drain,
      deallocate_after]
    cases s.containers i <;> rfl
  | change c => rfl

end

section
open UniqueOwnership
variable {sizeMax : ℕ} {ι : Type} [DecidableEq ι]

def pointersAfter (earlier : List ProviderCall) (s : State sizeMax ι) : State sizeMax ι :=
  { s with memory := after earlier s.memory }

omit [DecidableEq ι] in
@[simp] theorem deleter_after (earlier : List ProviderCall) (s : State sizeMax ι) :
    (pointersAfter earlier s).deleter = s.deleter := rfl

theorem moveDeleter_after (earlier : List ProviderCall) (s : State sizeMax ι) (i j : ι) :
    (pointersAfter earlier s).moveDeleter i j = pointersAfter earlier (s.moveDeleter i j) := by
  simp only [State.moveDeleter, pointersAfter, State.put]
  split <;> rfl

theorem destructed_after (earlier : List ProviderCall) (s : State sizeMax ι) :
    destructed (pointersAfter earlier s) = (destructed s).map (pointersAfter earlier) := by
  have same : (pointersAfter earlier s).stack = s.stack := rfl
  unfold destructed
  rw [same]
  cases s.stack with
  | nil => rfl
  | cons f stack =>
    cases f with
    | constructing c => rfl
    | destroying d =>
      simp only [deleter_after, Option.map_map]
      congr 1
      funext provider
      cases hd : d.assignment with
      | none =>
        simp only [Function.comp]
        simp only [pointersAfter, after_deallocate]
      | some move =>
        simp only [Function.comp, ← moveDeleter_after]
        simp only [pointersAfter, after_deallocate]

theorem moveAssign_after (earlier : List ProviderCall) (s : State sizeMax ι) (i j : ι) :
    moveAssign (pointersAfter earlier s) i j = (moveAssign s i j).map (pointersAfter earlier) := by
  unfold moveAssign
  change ((s.cells i).bind fun p => (s.cells j).bind fun q => _) = _
  cases s.cells i with
  | none => rfl
  | some p =>
    cases s.cells j with
    | none => rfl
    | some q =>
      simp only [Option.bind_some]
      split
      · rfl
      · split
        · cases q.destruction with
          | none => exact congrArg some (moveDeleter_after earlier (s.movePointer i j p q) i j)
          | some d => rfl
        · rfl

theorem next_pointersAfter (earlier : List ProviderCall) (s : State sizeMax ι)
    (a : UniqueOwnership.Action sizeMax ι) :
    UniqueOwnership.next (pointersAfter earlier s) a =
      (UniqueOwnership.next s a).map (pointersAfter earlier) := by
  cases a with
  | null i type =>
    simp only [UniqueOwnership.next, null, pointersAfter, State.put]
    cases s.cells i <;> rfl
  | make maker between answer =>
    cases answer <;> simp [UniqueOwnership.next, make, allocateStorage, pointersAfter]
  | constructed i =>
    simp only [UniqueOwnership.next, constructed, pointersAfter, State.put]
    split <;> rfl
  | constructorThrew =>
    simp only [UniqueOwnership.next, constructorThrew, pointersAfter]
    split <;> simp [pointersAfter]
  | moveConstruct i j =>
    simp only [UniqueOwnership.next, moveConstruct, pointersAfter, State.put]
    cases s.cells i <;> cases s.cells j <;> rfl
  | moveAssign i j => exact moveAssign_after earlier s i j
  | swap i j =>
    simp only [UniqueOwnership.next, swap, pointersAfter, State.put]
    cases s.cells i with
    | none => rfl
    | some p =>
      cases s.cells j with
      | none => rfl
      | some q =>
        simp only [Option.bind_some]
        split <;> rfl
  | reset i =>
    simp only [UniqueOwnership.next, reset, pointersAfter, State.put]
    cases s.cells i with
    | none => rfl
    | some p => cases hd : p.destruction <;> simp only [Option.map_some, hd] <;> rfl
  | drop i =>
    simp only [UniqueOwnership.next, drop]
    change (if i ∈ s.inUse then none else (s.cells i).map fun p => _) = _
    split
    · rfl
    · cases s.cells i with
      | none => rfl
      | some p => cases hd : p.destruction <;> simp only [Option.map_some, hd] <;> rfl
  | destructed => exact destructed_after earlier s
  | change c => rfl

end

/-- A part of a program that allocates. By itself it keeps its ledger balanced, and it does not
look at the calls that have been made. -/
structure Client where
  State : Type
  Action : Type
  init : State
  step : Memory → State → Action → Option (Memory × State)
  proper : State → Action → Prop
  owned : State → Multiset Block
  Invariant : List ProviderCall → State → Prop
  initial : Invariant [] init
  balanced : ∀ {calls s}, Invariant calls s → outstanding calls = some (owned s)
  keeps : ∀ {m m' s s' a}, Invariant m.calls s → proper s a → step m s a = some (m', s') →
    Invariant m'.calls s'
  appends : ∀ earlier m s a,
    step (after earlier m) s a = (step m s a).map (Prod.map (after earlier) id)

section
variable {sizeMax : ℕ} {ι : Type} [DecidableEq ι] [Fintype ι]

def containers (T : ElementType sizeMax) (P : MemoryPolicy) (ι : Type) [DecidableEq ι] [Fintype ι] :
    Client where
  State := ι → Option (ContainerStorage.Container T P)
  Action := ContainerStorage.Action ι
  init := fun _ => none
  step m s a := (ContainerStorage.next ⟨m, s⟩ a).map fun t => (t.memory, t.containers)
  proper _ _ := True
  owned s := holdings fun i => (s i).elim 0 ContainerStorage.Container.blocks
  Invariant calls s := ContainerStorage.Invariant ⟨⟨none, calls⟩, s⟩
  initial := ContainerStorage.initial_invariant none
  balanced h := h.balanced
  keeps := by
    intro m m' s s' a hs _ h
    obtain ⟨t, ht, same⟩ := Option.map_eq_some_iff.mp h
    obtain ⟨rfl, rfl⟩ := Prod.mk.inj same
    have start : ContainerStorage.Invariant ⟨m, s⟩ := ⟨hs.sound, hs.balanced⟩
    have kept := ContainerStorage.step_invariant start ht
    exact ⟨kept.sound, kept.balanced⟩
  appends earlier m s a := by
    have same := next_familyAfter earlier (⟨m, s⟩ : ContainerStorage.Family T P ι) a
    rw [familyAfter] at same
    rw [same, Option.map_map, Option.map_map]
    rfl

structure Pointers (sizeMax : ℕ) (ι : Type) where
  lifetimes : List (Entry (UniqueOwnership.Object sizeMax))
  stack : List (UniqueOwnership.Frame sizeMax ι)
  cells : ι → Option (UniqueOwnership.OwningPointer sizeMax)

def Pointers.among (p : Pointers sizeMax ι) (m : Memory) : UniqueOwnership.State sizeMax ι :=
  ⟨m, p.lifetimes, p.stack, p.cells⟩

def pointersOf (s : UniqueOwnership.State sizeMax ι) : Pointers sizeMax ι :=
  ⟨s.lifetimes, s.stack, s.cells⟩

def owningPointers (sizeMax : ℕ) (ι : Type) [DecidableEq ι] [Fintype ι] : Client where
  State := Pointers sizeMax ι
  Action := UniqueOwnership.Action sizeMax ι
  init := ⟨[], [], fun _ => none⟩
  step m s a := (UniqueOwnership.next (s.among m) a).map fun t => (t.memory, pointersOf t)
  proper s a := UniqueOwnership.AnswersProperly (s.among ⟨none, []⟩) a ∧
    UniqueOwnership.Respectful (s.among ⟨none, []⟩) a
  owned s :=
    let idle := s.among ⟨none, []⟩
    holdings (UniqueOwnership.held UniqueOwnership.Destruction.block idle.owned) +
      UniqueOwnership.inFlight idle.deleter s.stack
  Invariant calls s := UniqueOwnership.Invariant (s.among ⟨none, calls⟩)
  initial := UniqueOwnership.initial_invariant none
  balanced h := h.blocks
  keeps := by
    intro m m' s s' a hs ha h
    obtain ⟨t, ht, same⟩ := Option.map_eq_some_iff.mp h
    obtain ⟨rfl, rfl⟩ := Prod.mk.inj same
    have start : UniqueOwnership.Invariant (s.among m) :=
      ⟨hs.storage, hs.blocks, hs.objects, hs.owning, hs.used, hs.found, hs.nested⟩
    have kept := UniqueOwnership.step_invariant start ha.1 ha.2 ht
    exact ⟨kept.storage, kept.blocks, kept.objects, kept.owning, kept.used, kept.found,
      kept.nested⟩
  appends earlier m s a := by
    have same := next_pointersAfter earlier (s.among m) a
    rw [pointersAfter] at same
    change (UniqueOwnership.next _ a).map _ = _
    rw [Pointers.among] at same ⊢
    rw [same, Option.map_map, Option.map_map]
    rfl

instance decidablePointersProper (s : Pointers sizeMax ι) (a : UniqueOwnership.Action sizeMax ι) :
    Decidable ((owningPointers sizeMax ι).proper s a) :=
  inferInstanceAs (Decidable (UniqueOwnership.AnswersProperly (s.among ⟨none, []⟩) a ∧
    UniqueOwnership.Respectful (s.among ⟨none, []⟩) a))

end

/-- Whatever was called before, a step of a client posts what its own ledger is changed by. -/
theorem Client.accounts (C : Client) {m m' : Memory} {s s' : C.State} {a : C.Action}
    {calls : List ProviderCall} (hs : C.Invariant calls s) (ha : C.proper s a)
    (h : C.step m s a = some (m', s')) :
    ∃ made, m'.calls = m.calls ++ made ∧ C.Invariant (calls ++ made) s' ∧
      run plain (C.owned s) (blockEntries made) = some (C.owned s') := by
  have whole : after m.calls ⟨m.slot, []⟩ = m := by simp [after]
  obtain ⟨⟨n, t⟩, taken, same⟩ :=
    Option.map_eq_some_iff.mp ((C.appends m.calls ⟨m.slot, []⟩ s a).symm.trans (whole ▸ h))
  obtain ⟨rfl, rfl⟩ := Prod.mk.inj same
  have elsewhere : C.step (after calls ⟨m.slot, []⟩) s a = some (after calls n, t) := by
    rw [C.appends, taken]
    rfl
  have kept : C.Invariant (calls ++ n.calls) t := by
    refine C.keeps ?_ ha elsewhere
    change C.Invariant (calls ++ []) s
    rwa [List.append_nil]
  exact ⟨n.calls, rfl, kept, (outstanding_append (C.balanced hs)).symm.trans (C.balanced kept)⟩

section
variable {κ : Type} [DecidableEq κ]

structure World (C : κ → Client) where
  memory : Memory
  state : ∀ k, (C k).State

inductive Action (C : κ → Client) where
  | act (k : κ) (a : (C k).Action)
  | change (c : ProviderChange)

variable {C : κ → Client}

def initial (C : κ → Client) (slot : ProviderSlot) : World C := ⟨⟨slot, []⟩, fun k => (C k).init⟩

def next (w : World C) : Action C → Option (World C)
  | .act k a =>
    ((C k).step w.memory (w.state k) a).map fun r => ⟨r.1, Function.update w.state k r.2⟩
  | .change c => some { w with memory := w.memory.change [c] }

def Proper (w : World C) : Action C → Prop
  | .act k a => (C k).proper (w.state k) a
  | .change _ => True

variable [Fintype κ]

def owned (w : World C) : Multiset Block := holdings fun k => (C k).owned (w.state k)

structure Invariant (w : World C) : Prop where
  clients : ∀ k, ∃ calls, (C k).Invariant calls (w.state k)
  balanced : outstanding w.memory.calls = some (owned w)

omit [DecidableEq κ] in
theorem initial_invariant (C : κ → Client) (slot : ProviderSlot) : Invariant (initial C slot) := by
  have empty : ∀ k, (C k).owned (C k).init = 0 :=
    fun k => (Option.some.inj ((C k).balanced (C k).initial)).symm
  refine ⟨fun k => ⟨[], (C k).initial⟩, ?_⟩
  change outstanding [] = some (holdings fun k => (C k).owned (C k).init)
  simp only [empty]
  rw [holdings_empty]
  rfl

theorem owned_update (w : World C) (k : κ) (t : (C k).State) (m : Memory) :
    ∃ rest, owned w = (C k).owned (w.state k) + rest ∧
      owned (⟨m, Function.update w.state k t⟩ : World C) = (C k).owned t + rest := by
  obtain ⟨rest, total, update⟩ := holdings_split (fun k => (C k).owned (w.state k)) k
  refine ⟨rest, total, ?_⟩
  rw [← update, owned]
  congr 1
  funext j
  exact Function.apply_update (fun j => (C j).owned) w.state k t j

theorem step_invariant {w w' : World C} {a : Action C} (hw : Invariant w) (ha : Proper w a)
    (h : next w a = some w') : Invariant w' := by
  cases a with
  | change c =>
    rw [← Option.some.inj h]
    exact ⟨hw.clients, hw.balanced⟩
  | act k a =>
    obtain ⟨⟨m, t⟩, taken, rfl⟩ := Option.map_eq_some_iff.mp h
    obtain ⟨calls, before⟩ := hw.clients k
    obtain ⟨made, appended, kept, posted⟩ := (C k).accounts before ha taken
    obtain ⟨rest, total, total'⟩ := owned_update w k t m
    refine ⟨?_, ?_⟩
    · exact (Function.forall_update_iff w.state fun j s => ∃ calls, (C j).Invariant calls s).mpr
        ⟨⟨_, kept⟩, fun j _ => hw.clients j⟩
    · have start : outstanding w.memory.calls = some ((C k).owned (w.state k) + rest) :=
        total ▸ hw.balanced
      change outstanding m.calls = some _
      rw [appended, outstanding_append start, total']
      exact run_frame rest posted

theorem run_invariant {slot : ProviderSlot} {as : List (Action C)} {w : World C}
    (ha : Meets next Proper (initial C slot) as) (h : run next (initial C slot) as = some w) :
    Invariant w :=
  invariant_of_meets (C := Proper) (fun _ _ _ ha hw h => step_invariant hw ha h)
    (initial_invariant C slot) ha h

/-- A family of containers beside one owning pointer. -/
def pairOfClients : Bool → Client
  | false => containers wordType .externalPreferred Bool
  | true => owningPointers 0xFFFFFFFF Unit

/-- The container is filled from provider 1, the object made by provider 2; both outlive it. -/
def interleaved : List (Action pairOfClients) :=
  [.act false (ContainerStorage.Action.construct false none),
    .act false (ContainerStorage.Action.refill false ⟨8, [.setProvider (some 2)], .pointer 64, [], true⟩),
    .act true (UniqueOwnership.Action.make (.polymorphic 7 ⟨2, wordType⟩ .internal 4) [] (.pointer 128)),
    .act true (UniqueOwnership.Action.constructed ()), .change .resetProvider,
    .act false (ContainerStorage.Action.moveConstruct false true),
    .act true (UniqueOwnership.Action.drop ()), .act true UniqueOwnership.Action.destructed]

instance (w : World pairOfClients) : ∀ a, Decidable (Proper w a)
  | .act false _ | .change _ => isTrue trivial
  | .act true a => decidablePointersProper (w.state true : Pointers 0xFFFFFFFF Unit) a

theorem interleaved_proper : Meets next Proper (initial pairOfClients (some 1)) interleaved := by
  decide +kernel

theorem interleaved_completes :
    (run next (initial pairOfClients (some 1)) interleaved).isSome := rfl

/-- The bytes of two blocks are not the same. -/
def Apart (a b : Block) : Prop :=
  a.address + a.request.bytes ≤ b.address ∨ b.address + b.request.bytes ≤ a.address

instance : Std.Symm Apart := ⟨fun _ _ h => h.symm⟩

/-- No provider supplies bytes that have not been given back. -/
def Fresh (calls : List ProviderCall) : Prop :=
  ∀ before request address later held,
    calls = before ++ .allocate request (.pointer address) :: later → address ≠ 0 →
      outstanding before = some held → ∀ b ∈ held, Apart ⟨request, address⟩ b

theorem outstanding_apart {calls : List ProviderCall} {held : Multiset Block}
    (fresh : Fresh calls) (h : outstanding calls = some held) : held.Pairwise Apart := by
  refine pairwise_of_run h fun before block later mid hsplit hmid => ?_
  obtain ⟨first, second, rfl, hfirst, hsecond⟩ := List.filterMap_eq_append_iff.mp hsplit
  obtain ⟨silent, call, rest, rfl, quiet, hcall, _⟩ := List.filterMap_eq_cons_iff.mp hsecond
  have earlier : outstanding (first ++ silent) = some mid := by
    unfold outstanding blockEntries
    rw [List.filterMap_append, hfirst, List.filterMap_eq_nil_iff.mpr quiet, List.append_nil, hmid]
  cases call with
  | deallocate block => cases hcall
  | allocate request answer =>
    obtain ⟨supply, hsupply, same⟩ := Option.map_eq_some_iff.mp hcall
    cases same
    cases answer with
    | exception => cases hsupply
    | pointer address =>
      cases address with
      | zero => cases hsupply
      | succ n =>
        cases hsupply
        exact fresh _ _ _ rest _ (List.append_assoc _ _ _).symm (Nat.succ_ne_zero n) earlier

theorem interleaved_fresh : Fresh
    [.allocate ⟨1, 32, 4, .externalPreferred⟩ (.pointer 64),
      .allocate ⟨2, 4, 4, .internal⟩ (.pointer 128)] := by
  intro before request address later held hsplit _ hheld b hb
  match before, hsplit with
  | [], _ =>
    have none_held : held = 0 := (Option.some.inj hheld).symm
    rw [none_held] at hb
    exact absurd hb (Multiset.notMem_zero b)
  | [c], hsplit =>
    simp only [List.cons_append, List.nil_append, List.cons.injEq, ProviderCall.allocate.injEq] at hsplit
    obtain ⟨rfl, ⟨rfl, same⟩, _⟩ := hsplit
    cases same
    have one : held = {⟨⟨1, 32, 4, .externalPreferred⟩, 64⟩} := (Option.some.inj hheld).symm
    rw [one, Multiset.mem_singleton] at hb
    subst hb
    exact .inr (by decide)
  | c :: d :: before, hsplit => simp at hsplit

end

end ESPressioSystem.MemoryWorld
