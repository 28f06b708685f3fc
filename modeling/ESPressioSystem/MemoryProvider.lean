import ESPressioSystem.Ledger

set_option autoImplicit false

/-!
# The installed memory provider and the calls that providers receive
-/
namespace ESPressioSystem.MemoryProvider
open Transition Ledger

inductive MemoryPolicy where
  | automatic
  | internal
  | externalPreferred
  | externalRequired
  deriving DecidableEq, Repr

/-- The identity of an `IMemoryProvider`. -/
abbrev ProviderId := ℕ

def defaultProvider : ProviderId := 0

/-- The atomic pointer of `ProviderSlot`; `none` is null. -/
abbrev ProviderSlot := Option ProviderId

def initialSlot : ProviderSlot := some defaultProvider

def getProvider (slot : ProviderSlot) : ProviderId :=
  match slot with
  | some provider => provider
  | none => defaultProvider

/-- The new slot, with the previous content that the call returns. -/
def setProvider (slot : ProviderSlot) (provider : Option ProviderId) :
    ProviderSlot × Option ProviderId :=
  match provider with
  | some p => (some p, slot)
  | none => (some defaultProvider, slot)

def resetProvider (slot : ProviderSlot) : ProviderSlot := (setProvider slot (some defaultProvider)).1

inductive ProviderChange where
  | setProvider (provider : Option ProviderId)
  | resetProvider
  deriving DecidableEq, Repr

def ProviderChange.apply (slot : ProviderSlot) : ProviderChange → ProviderSlot
  | .setProvider p => (MemoryProvider.setProvider slot p).1
  | .resetProvider => MemoryProvider.resetProvider slot

def applyAll (slot : ProviderSlot) (changes : List ProviderChange) : ProviderSlot :=
  changes.foldl ProviderChange.apply slot

/-- What `Allocate` is asked, and of whom. -/
structure Request where
  provider : ProviderId
  bytes : ℕ
  alignment : ℕ
  policy : MemoryPolicy
  deriving DecidableEq, Repr

/-- How a call of `Allocate` ends; the address 0 is the null pointer. -/
inductive Answer where
  | pointer (address : ℕ)
  | exception
  deriving DecidableEq, Repr

def Answer.isBlock : Answer → Bool
  | .pointer 0 | .exception => false
  | .pointer (_ + 1) => true

structure Block where
  request : Request
  address : ℕ
  deriving DecidableEq, Repr

inductive ProviderCall where
  | allocate (request : Request) (answer : Answer)
  | deallocate (block : Block)
  deriving DecidableEq, Repr

/-- The process-wide slot, and all calls that providers have received so far. -/
structure Memory where
  slot : ProviderSlot
  calls : List ProviderCall
  deriving DecidableEq

def Memory.change (m : Memory) (changes : List ProviderChange) : Memory :=
  { m with slot := applyAll m.slot changes }

def Memory.allocate (m : Memory) (request : Request) (answer : Answer) : Memory :=
  { m with calls := m.calls ++ [.allocate request answer] }

def Memory.deallocate (m : Memory) (block : Block) : Memory :=
  { m with calls := m.calls ++ [.deallocate block] }

def supplied (request : Request) : Answer → Option Block
  | .pointer 0 | .exception => none
  | .pointer (a + 1) => some ⟨request, a + 1⟩

def callEntry : ProviderCall → Option (Entry Block)
  | .allocate request answer => (supplied request answer).map .acquire
  | .deallocate block => some (.release block)

def blockEntries (calls : List ProviderCall) : List (Entry Block) := calls.filterMap callEntry

/-- The blocks that providers have supplied and not got back; `none` when some call gave
back what was not outstanding. -/
def outstanding (calls : List ProviderCall) : Option (Multiset Block) :=
  run plain 0 (blockEntries calls)

theorem applyAll_append (slot : ProviderSlot) (first second : List ProviderChange) :
    applyAll slot (first ++ second) = applyAll (applyAll slot first) second :=
  List.foldl_append

@[simp] theorem change_calls (m : Memory) (changes : List ProviderChange) :
    (m.change changes).calls = m.calls := rfl

theorem isBlock_iff {answer : Answer} :
    answer.isBlock = true ↔ ∃ address, address ≠ 0 ∧ answer = .pointer address := by
  constructor
  · intro h
    cases answer with
    | exception => cases h
    | pointer address =>
      cases address with
      | zero => cases h
      | succ a => exact ⟨a + 1, by omega, rfl⟩
  · rintro ⟨address, hpointer, rfl⟩
    cases address with
    | zero => exact absurd rfl hpointer
    | succ a => rfl

theorem supplied_pointer (request : Request) {address : ℕ} (h : address ≠ 0) :
    supplied request (.pointer address) = some ⟨request, address⟩ := by
  cases address with
  | zero => exact absurd rfl h
  | succ a => rfl

theorem outstanding_append {calls later : List ProviderCall} {held : Multiset Block}
    (h : outstanding calls = some held) :
    outstanding (calls ++ later) = run plain held (blockEntries later) := by
  unfold outstanding blockEntries at h ⊢
  rw [List.filterMap_append, run_append, h]
  rfl

theorem outstanding_allocate {m : Memory} {held : Multiset Block} (request : Request)
    (answer : Answer) (h : outstanding m.calls = some held) :
    outstanding (m.allocate request answer).calls =
      some ((supplied request answer).elim held fun block => block ::ₘ held) := by
  rw [Memory.allocate, outstanding_append h]
  cases hs : supplied request answer with
  | none => simp [blockEntries, callEntry, hs]
  | some block =>
    simp only [blockEntries, List.filterMap_cons, callEntry, hs, Option.map_some, List.filterMap_nil]
    rfl

theorem outstanding_deallocate {m : Memory} {held : Multiset Block} (block : Block)
    (h : outstanding m.calls = some (block ::ₘ held)) :
    outstanding (m.deallocate block).calls = some held := by
  rw [Memory.deallocate, outstanding_append h]
  exact (run_singleton _ _ _).trans (plain_release held block)

theorem outstanding_deallocate_iff {m : Memory} {held : Multiset Block} {b : Block} (block : Block)
    (h : outstanding m.calls = some (b ::ₘ held)) :
    outstanding (m.deallocate block).calls = some held ↔ block = b := by
  have posted : outstanding (m.deallocate block).calls = plain (b ::ₘ held) (.release block) := by
    rw [Memory.deallocate, outstanding_append h]
    exact run_singleton _ _ _
  rw [posted, plain_release_iff]

/-- Each call of `Deallocate` gives back a block that the same provider supplied before, with
all that it was asked for, and that it has not got back since. -/
theorem deallocate_after_allocate {calls before after : List ProviderCall} {block : Block}
    {held : Multiset Block} (h : outstanding calls = some held)
    (hsplit : calls = before ++ .deallocate block :: after) :
    releases block (blockEntries before) < acquisitions block (blockEntries before) := by
  rw [hsplit] at h
  unfold outstanding blockEntries at h
  rw [List.filterMap_append] at h
  exact release_lt_acquisitions h

end ESPressioSystem.MemoryProvider
