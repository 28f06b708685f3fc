import ESPressioSystem.MemoryAllocator

set_option autoImplicit false

/-!
# `MakeUnique`, `MakePolymorphicUnique` and the pointers they return

The stack holds the constructors and destructors that are running, the innermost first;
any operation may be called from inside them. A move assignment moves the pointer, calls the
deleter for the object that was owned before, and only then moves the deleter.
-/
namespace ESPressioSystem.UniqueOwnership
open Transition Ledger MemoryProvider MemoryAllocator

structure ObjectType (sizeMax : ℕ) where
  name : ℕ
  element : ElementType sizeMax
  deriving DecidableEq

structure Object (sizeMax : ℕ) where
  type : ObjectType sizeMax
  address : ℕ
  deriving DecidableEq

/-- `DestroyPolymorphicObject<TBase, TDerived, P>`, where the base lies `offset` bytes into the
derived object. -/
structure DestroyFunction (sizeMax : ℕ) where
  derived : ObjectType sizeMax
  policy : MemoryPolicy
  offset : ℕ
  deriving DecidableEq

/-- `ObjectDeleter<T, P>` and `PolymorphicObjectDeleter<TBase>` -/
inductive Deleter (sizeMax : ℕ) where
  | object (T : ObjectType sizeMax) (P : MemoryPolicy) (provider : ProviderId)
  | polymorphic (base : ℕ) (provider : Option ProviderId) (destroy : Option (DestroyFunction sizeMax))
  deriving DecidableEq

structure OwningPointer (sizeMax : ℕ) where
  pointer : ℕ
  deleter : Deleter sizeMax

/-- `UniquePtr<T, P>` and `PolymorphicUniquePtr<TBase>` -/
inductive PointerType (sizeMax : ℕ) where
  | unique (T : ObjectType sizeMax) (P : MemoryPolicy)
  | polymorphic (base : ℕ)
  deriving DecidableEq

inductive Maker (sizeMax : ℕ) where
  | unique (T : ObjectType sizeMax) (P : MemoryPolicy)
  | polymorphic (base : ℕ) (derived : ObjectType sizeMax) (P : MemoryPolicy) (offset : ℕ)

section
variable {sizeMax : ℕ}

def Maker.type : Maker sizeMax → ObjectType sizeMax
  | .unique T _ => T
  | .polymorphic _ derived _ _ => derived

def Maker.policy : Maker sizeMax → MemoryPolicy
  | .unique _ P => P
  | .polymorphic _ _ P _ => P

def objectRequest (T : ObjectType sizeMax) (P : MemoryPolicy) (provider : ProviderId) : Request :=
  ⟨provider, T.element.size, T.element.alignment, P⟩

/-- `static_cast` between derived and base keeps the null pointer. -/
def toBase (offset derived : ℕ) : ℕ := if derived = 0 then 0 else derived + offset
def toDerived (offset base : ℕ) : ℕ := if base = 0 then 0 else base - offset

/-- The pointer returned once the object has been constructed on the storage. -/
def Maker.result (provider : ProviderId) (storage : ℕ) : Maker sizeMax → OwningPointer sizeMax
  | .unique T P => ⟨storage, .object T P provider⟩
  | .polymorphic base derived P offset =>
    ⟨toBase offset storage, .polymorphic base (some provider) (some ⟨derived, P, offset⟩)⟩

def PointerType.null (slot : ProviderSlot) : PointerType sizeMax → OwningPointer sizeMax
  | .unique T P => ⟨0, .object T P (getProvider slot)⟩
  | .polymorphic base => ⟨0, .polymorphic base none none⟩

def OwningPointer.type (p : OwningPointer sizeMax) : PointerType sizeMax :=
  match p.deleter with
  | .object T P _ => .unique T P
  | .polymorphic base _ _ => .polymorphic base

def OwningPointer.released (p : OwningPointer sizeMax) : OwningPointer sizeMax := { p with pointer := 0 }

/-- What a call of the deleter does: the destructor, and `Deallocate` after it. -/
structure Destruction (sizeMax : ℕ) where
  object : Object sizeMax
  policy : MemoryPolicy
  provider : ProviderId

def Destruction.block (d : Destruction sizeMax) : Block :=
  ⟨objectRequest d.object.type d.policy d.provider, d.object.address⟩

def OwningPointer.destruction (p : OwningPointer sizeMax) : Option (Destruction sizeMax) :=
  if p.pointer = 0 then none
  else
    match p.deleter with
    | .object T P provider => some ⟨⟨T, p.pointer⟩, P, provider⟩
    | .polymorphic _ (some provider) (some destroy) =>
      some ⟨⟨destroy.derived, toDerived destroy.offset p.pointer⟩, destroy.policy, provider⟩
    | .polymorphic _ _ _ => none

def Deleter.provider : Deleter sizeMax → Option ProviderId
  | .object _ _ provider => some provider
  | .polymorphic _ provider _ => provider

/-- Storage on which a constructor runs. -/
structure Construction (sizeMax : ℕ) where
  maker : Maker sizeMax
  provider : ProviderId
  storage : ℕ

def Construction.block (c : Construction sizeMax) : Block :=
  ⟨objectRequest c.maker.type c.maker.policy c.provider, c.storage⟩

/-- Where the provider is found whose `Deallocate` is called after the destructor: it has been
passed to `DestroyPolymorphicObject`, or `ObjectDeleter` reads its member, in the pointer `i`.
A deleter that goes down with its pointer is out of reach, and counts as passed. -/
inductive Origin (ι : Type) where
  | passed (provider : ProviderId)
  | member (i : ι)

/-- A destructor, and what follows it; after a move assignment the deleter is moved, too. -/
structure DeleterCall (sizeMax : ℕ) (ι : Type) where
  object : Object sizeMax
  policy : MemoryPolicy
  origin : Origin ι
  assignment : Option (ι × ι)

inductive Frame (sizeMax : ℕ) (ι : Type) where
  | constructing (c : Construction sizeMax)
  | destroying (d : DeleterCall sizeMax ι)

def Deleter.origin {ι : Type} (deleter : Deleter sizeMax) (i : ι) (provider : ProviderId) : Origin ι :=
  match deleter with
  | .object _ _ _ => .member i
  | .polymorphic _ _ _ => .passed provider

def Origin.provider {ι : Type} (deleter : ι → Option (Deleter sizeMax)) : Origin ι → Option ProviderId
  | .passed provider => some provider
  | .member i => (deleter i).bind Deleter.provider

def Origin.uses {ι : Type} : Origin ι → List ι
  | .passed _ => []
  | .member i => [i]

def Frame.assignment {ι : Type} : Frame sizeMax ι → Option (ι × ι)
  | .constructing _ => none
  | .destroying d => d.assignment

/-- The pointers whose deleters are still to be read or moved. -/
def Frame.uses {ι : Type} : Frame sizeMax ι → List ι
  | .constructing _ => []
  | .destroying d => d.origin.uses ++ d.assignment.elim [] fun (i, j) => [i, j]

/-- A lifetime begins when the constructor has returned, and ends when the destructor starts. -/
structure State (sizeMax : ℕ) (ι : Type) where
  memory : Memory
  lifetimes : List (Entry (Object sizeMax))
  stack : List (Frame sizeMax ι)
  cells : ι → Option (OwningPointer sizeMax)

inductive Action (sizeMax : ℕ) (ι : Type) where
  | null (i : ι) (type : PointerType sizeMax)
  | make (maker : Maker sizeMax) (between : List ProviderChange) (answer : Answer)
  | constructed (i : ι)
  | constructorThrew
  | moveConstruct (i j : ι)
  | moveAssign (i j : ι)
  | swap (i j : ι)
  | reset (i : ι)
  | drop (i : ι)
  | destructed
  | change (c : ProviderChange)

/-- `GetProvider()` and then `Allocate`, with which both functions begin. -/
def allocateStorage (maker : Maker sizeMax) (between : List ProviderChange) (answer : Answer)
    (m : Memory) : Memory × Except AllocationError (Construction sizeMax) :=
  let provider := getProvider m.slot
  let after := (m.change between).allocate (objectRequest maker.type maker.policy provider) answer
  match answer with
  | .pointer storage => (after, .ok ⟨maker, provider, storage⟩)
  | .exception => (after, .error .providerException)

variable {ι : Type} [DecidableEq ι]

def initial (sizeMax : ℕ) (ι : Type) (slot : ProviderSlot) : State sizeMax ι :=
  ⟨⟨slot, []⟩, [], [], fun _ => none⟩

def State.put (s : State sizeMax ι) (i : ι) (p : Option (OwningPointer sizeMax)) : State sizeMax ι :=
  { s with cells := Function.update s.cells i p }

def State.deleter (s : State sizeMax ι) (i : ι) : Option (Deleter sizeMax) :=
  (s.cells i).map OwningPointer.deleter

def State.inUse (s : State sizeMax ι) : List ι := s.stack.flatMap Frame.uses

def State.destroy (s : State sizeMax ι) (d : Destruction sizeMax) (origin : Origin ι)
    (assignment : Option (ι × ι)) : State sizeMax ι :=
  { s with
    lifetimes := s.lifetimes ++ [.release d.object]
    stack := .destroying ⟨d.object, d.policy, origin, assignment⟩ :: s.stack }

/-- `reset(u.release())`, less the call of the deleter -/
def State.movePointer (s : State sizeMax ι) (i j : ι) (p q : OwningPointer sizeMax) : State sizeMax ι :=
  (s.put i (some p.released)).put j (some { q with pointer := p.pointer })

/-- `get_deleter() = std::forward<D>(u.get_deleter())` -/
def State.moveDeleter (s : State sizeMax ι) (i j : ι) : State sizeMax ι :=
  match s.cells i, s.cells j with
  | some p, some q => s.put j (some { q with deleter := p.deleter })
  | _, _ => s

def make (s : State sizeMax ι) (maker : Maker sizeMax) (between : List ProviderChange)
    (answer : Answer) : State sizeMax ι :=
  let r := allocateStorage maker between answer s.memory
  match r.2 with
  | .ok c => { s with memory := r.1, stack := .constructing c :: s.stack }
  | .error _ => { s with memory := r.1 }

def constructed (s : State sizeMax ι) (i : ι) : Option (State sizeMax ι) :=
  match s.stack, s.cells i with
  | .constructing c :: stack, none =>
    some { s.put i (some (c.maker.result c.provider c.storage)) with
      lifetimes := s.lifetimes ++ [.acquire ⟨c.maker.type, c.storage⟩]
      stack := stack }
  | _, _ => none

def constructorThrew (s : State sizeMax ι) : Option (State sizeMax ι) :=
  match s.stack with
  | .constructing c :: stack => some { s with memory := s.memory.deallocate c.block, stack := stack }
  | _ => none

def destructed (s : State sizeMax ι) : Option (State sizeMax ι) :=
  match s.stack with
  | .destroying d :: stack =>
    (d.origin.provider s.deleter).map fun provider =>
      let s := { s with
        memory := s.memory.deallocate
          ⟨objectRequest d.object.type d.policy provider, d.object.address⟩
        stack := stack }
      match d.assignment with
      | some (i, j) => s.moveDeleter i j
      | none => s
  | _ => none

def null (s : State sizeMax ι) (i : ι) (type : PointerType sizeMax) : Option (State sizeMax ι) :=
  match s.cells i with
  | some _ => none
  | none => some (s.put i (some (type.null s.memory.slot)))

def moveConstruct (s : State sizeMax ι) (i j : ι) : Option (State sizeMax ι) :=
  (s.cells i).bind fun p =>
    match s.cells j with
    | some _ => none
    | none => some ((s.put i (some p.released)).put j (some p))

def moveAssign (s : State sizeMax ι) (i j : ι) : Option (State sizeMax ι) :=
  (s.cells i).bind fun p => (s.cells j).bind fun q =>
    if i = j then some s
    else if p.type = q.type then
      let s := s.movePointer i j p q
      match q.destruction with
      | some d => some (s.destroy d (q.deleter.origin j d.provider) (some (i, j)))
      | none => some (s.moveDeleter i j)
    else none

def swap (s : State sizeMax ι) (i j : ι) : Option (State sizeMax ι) :=
  (s.cells i).bind fun p => (s.cells j).bind fun q =>
    if p.type = q.type then some ((s.put i (some q)).put j (some p)) else none

def reset (s : State sizeMax ι) (i : ι) : Option (State sizeMax ι) :=
  (s.cells i).map fun p =>
    let s := s.put i (some p.released)
    match p.destruction with
    | some d => s.destroy d (p.deleter.origin i d.provider) none
    | none => s

/-- A pointer is not destroyed while its deleter is still to be used. -/
def drop (s : State sizeMax ι) (i : ι) : Option (State sizeMax ι) :=
  if i ∈ s.inUse then none
  else (s.cells i).map fun p =>
    let s := s.put i none
    match p.destruction with
    | some d => s.destroy d (.passed d.provider) none
    | none => s

def next (s : State sizeMax ι) : Action sizeMax ι → Option (State sizeMax ι)
  | .null i type => null s i type
  | .make maker between answer => some (make s maker between answer)
  | .constructed i => constructed s i
  | .constructorThrew => constructorThrew s
  | .moveConstruct i j => moveConstruct s i j
  | .moveAssign i j => moveAssign s i j
  | .swap i j => swap s i j
  | .reset i => reset s i
  | .drop i => drop s i
  | .destructed => destructed s
  | .change c => some { s with memory := s.memory.change [c] }

end

end ESPressioSystem.UniqueOwnership
