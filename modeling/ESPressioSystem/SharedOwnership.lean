import ESPressioSystem.MemoryAllocator

set_option autoImplicit false

/-!
# `MakeShared`, from its start to the release of the last reference

`std::allocate_shared` takes the block through a rebound copy of its allocator argument,
keeps a second copy of that argument in the control block, and releases the block through
a rebound copy of the second one.
-/
namespace ESPressioSystem.SharedOwnership
open MemoryProvider MemoryAllocator

structure SharedLife where
  beforeBinding : List ProviderChange
  beforeAllocate : List ProviderChange
  construction : List ProviderChange
  sharing : List ProviderChange
  destruction : List ProviderChange
  beforeRelease : List ProviderChange
  deriving DecidableEq

def SharedLife.afterBinding (life : SharedLife) : List ProviderChange :=
  life.beforeAllocate ++ life.construction ++ life.sharing ++ life.destruction ++ life.beforeRelease

section
variable {sizeMax : ℕ}

/-- `B` is what the library allocates for the object together with its control block. -/
def makeShared (T B : ElementType sizeMax) (P : MemoryPolicy) (life : SharedLife) (address : ℕ)
    (m : Memory) : Memory :=
  let argument : Allocator T P := .unbound
  let forBlock := argument.rebind B
  let block := forBlock.allocate 1 life.beforeAllocate (.pointer address) (m.change life.beforeBinding)
  let stored := argument.rebind T
  let atRelease := (((block.memory.change life.construction).change life.sharing).change
    life.destruction).change life.beforeRelease
  (stored.rebind B).deallocate address 1 atRelease

def ReturnsStorage (T B : ElementType sizeMax) (P : MemoryPolicy) (life : SharedLife) (address : ℕ)
    (m : Memory) : Prop :=
  ∃ r : Request, r.provider = getProvider (applyAll m.slot life.beforeBinding) ∧
    (makeShared T B P life address m).calls =
      m.calls ++ [.allocate r (.pointer address), .deallocate ⟨r, address⟩]

theorem makeShared_calls (T B : ElementType sizeMax) (P : MemoryPolicy) (life : SharedLife)
    {address : ℕ} (hpointer : address ≠ 0) (m : Memory) :
    (makeShared T B P life address m).calls = m.calls ++
      [.allocate (request B P (getProvider (applyAll m.slot life.beforeBinding)) 1) (.pointer address),
        .deallocate ⟨request B P (getProvider
          (applyAll m.slot (life.beforeBinding ++ life.afterBinding))) 1, address⟩] := by
  simp only [makeShared, allocate_pointer (one_fits B), deallocate_pointer hpointer,
    Memory.change, Memory.allocate, Memory.deallocate, SharedLife.afterBinding, applyAll_append,
    List.append_assoc]
  rfl

/-- The storage goes back where it came from exactly if the provider active at its release
is the one that was active when the allocator bound. -/
theorem makeShared_returns_iff (T B : ElementType sizeMax) (P : MemoryPolicy) (life : SharedLife)
    {address : ℕ} (hpointer : address ≠ 0) (m : Memory) :
    ReturnsStorage T B P life address m ↔
      getProvider (applyAll m.slot (life.beforeBinding ++ life.afterBinding)) =
        getProvider (applyAll m.slot life.beforeBinding) := by
  have calls := makeShared_calls T B P life hpointer m
  constructor
  · rintro ⟨r, hprovider, hcalls⟩
    have same := List.append_cancel_left (calls.symm.trans hcalls)
    simp only [List.cons.injEq, ProviderCall.allocate.injEq, ProviderCall.deallocate.injEq,
      Block.mk.injEq, and_true] at same
    exact (congrArg Request.provider same.2).trans hprovider
  · intro hactive
    exact ⟨_, rfl, by rw [calls, hactive]⟩

def wordBlock : ElementType 0xFFFFFFFF := ⟨24, 4, by decide, by decide⟩

theorem makeShared_returns_restored :
    ReturnsStorage wordType wordBlock .externalPreferred
      ⟨[], [], [], [.setProvider (some 2), .setProvider (some 1)], [], []⟩ 64 ⟨some 1, []⟩ :=
  (makeShared_returns_iff wordType wordBlock .externalPreferred _ (by decide) _).mpr (by decide)

theorem makeShared_returns_astray :
    ¬ ReturnsStorage wordType wordBlock .externalPreferred
      ⟨[], [], [], [.setProvider (some 2)], [], []⟩ 64 ⟨some 1, []⟩ := by
  rintro ⟨r, hprovider, hcalls⟩
  have received : (makeShared wordType wordBlock .externalPreferred
      ⟨[], [], [], [.setProvider (some 2)], [], []⟩ 64 ⟨some 1, []⟩).calls =
        [.allocate ⟨1, 24, 4, .externalPreferred⟩ (.pointer 64),
          .deallocate ⟨⟨2, 24, 4, .externalPreferred⟩, 64⟩] := by decide
  have same := received.symm.trans hcalls
  simp only [List.nil_append, List.cons.injEq, ProviderCall.deallocate.injEq, Block.mk.injEq] at same
  have stray : r.provider = 2 := congrArg Request.provider same.2.1.1.symm
  rw [stray] at hprovider
  exact absurd hprovider (by decide)

end

end ESPressioSystem.SharedOwnership
