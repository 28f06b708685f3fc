import ESPressioSystem.MemoryWorld

set_option autoImplicit false

/-!
# The portable provider on top of `operator new` and `operator delete`
-/
namespace ESPressioSystem.DefaultMemoryProvider
open Transition Ledger MemoryProvider MemoryAllocator MemoryWorld

/-- `__cpp_aligned_new` and `__STDCPP_DEFAULT_NEW_ALIGNMENT__` -/
structure Compiler where
  alignedNew : Bool
  defaultNewAlignment : ℕ

inductive Overload where
  | plain
  | aligned (alignment : ℕ)
  deriving DecidableEq, Repr

inductive HeapCall where
  | new (bytes : ℕ) (overload : Overload) (answer : Answer)
  | delete (pointer : ℕ) (overload : Overload)
  deriving DecidableEq, Repr

def Compiler.overload (k : Compiler) (alignment : ℕ) : Overload :=
  if k.alignedNew = true ∧ alignment > k.defaultNewAlignment then .aligned alignment else .plain

def allocate (k : Compiler) (bytes alignment : ℕ) (_ : MemoryPolicy) (answer : Answer) : HeapCall :=
  .new (if bytes = 0 then 1 else bytes) (k.overload alignment) answer

def deallocate (k : Compiler) (pointer _bytes alignment : ℕ) (_ : MemoryPolicy) : Option HeapCall :=
  if pointer = 0 then none else some (.delete pointer (k.overload alignment))

/-- Storage may be deleted only by the overload that belongs to the one it comes from. -/
structure HeapBlock where
  address : ℕ
  overload : Overload
  deriving DecidableEq, Repr

def heapEntry : HeapCall → Option (Entry HeapBlock)
  | .new _ overload (.pointer (a + 1)) => some (.acquire ⟨a + 1, overload⟩)
  | .new _ _ (.pointer 0) | .new _ _ .exception => none
  | .delete pointer overload => some (.release ⟨pointer, overload⟩)

def heapEntries (calls : List HeapCall) : List (Entry HeapBlock) := calls.filterMap heapEntry

def heapCall (k : Compiler) : ProviderCall → Option HeapCall
  | .allocate r answer =>
    if r.provider = defaultProvider then some (allocate k r.bytes r.alignment r.policy answer) else none
  | .deallocate b =>
    if b.request.provider = defaultProvider then
      deallocate k b.address b.request.bytes b.request.alignment b.request.policy
    else none

def heapCalls (k : Compiler) (calls : List ProviderCall) : List HeapCall := calls.filterMap (heapCall k)

def heapBlock (k : Compiler) (b : Block) : Option HeapBlock :=
  if b.request.provider = defaultProvider then some ⟨b.address, k.overload b.request.alignment⟩
  else none

theorem entry_image (k : Compiler) {call : ProviderCall}
    (h : ∀ b, call = .deallocate b → b.address ≠ 0) :
    (heapCall k call).bind heapEntry = (callEntry call).bind (Entry.image (heapBlock k)) := by
  cases call with
  | allocate r answer =>
    by_cases hr : r.provider = defaultProvider
    · cases answer with
      | exception => simp [heapCall, hr, allocate, heapEntry, callEntry, supplied]
      | pointer address =>
        cases address with
        | zero => simp [heapCall, hr, allocate, heapEntry, callEntry, supplied]
        | succ n =>
          simp [heapCall, hr, allocate, heapEntry, callEntry, supplied, Entry.image, heapBlock]
    · cases hs : supplied r answer with
      | none => simp [heapCall, hr, callEntry, hs]
      | some b =>
        have same : b.request = r := by
          cases answer with
          | exception => cases hs
          | pointer address =>
            cases address with
            | zero => cases hs
            | succ n => rw [← Option.some.inj hs]
        simp [heapCall, hr, callEntry, hs, Entry.image, heapBlock, same]
  | deallocate b =>
    have hb := h b rfl
    by_cases hr : b.request.provider = defaultProvider
    · simp [heapCall, hr, deallocate, hb, heapEntry, callEntry, Entry.image, heapBlock]
    · simp [heapCall, hr, callEntry, Entry.image, heapBlock]

theorem deallocate_address {calls : List ProviderCall} {held : Multiset Block}
    (h : outstanding calls = some held) {b : Block} (hb : .deallocate b ∈ calls) : b.address ≠ 0 := by
  obtain ⟨before, later, hsplit⟩ := List.append_of_mem hb
  have earlier := deallocate_after_allocate h hsplit
  have supply : .acquire b ∈ blockEntries before :=
    List.count_pos_iff.mp ((Nat.zero_le _).trans_lt earlier)
  obtain ⟨call, _, hcall⟩ := List.mem_filterMap.mp supply
  cases call with
  | deallocate _ => cases hcall
  | allocate r answer =>
    obtain ⟨c, hs, same⟩ := Option.map_eq_some_iff.mp hcall
    cases same
    cases answer with
    | exception => cases hs
    | pointer address =>
      cases address with
      | zero => cases hs
      | succ n =>
        rw [← Option.some.inj hs]
        exact Nat.succ_ne_zero n

theorem heap_outstanding (k : Compiler) {calls : List ProviderCall} {held : Multiset Block}
    (h : outstanding calls = some held) :
    run plain 0 (heapEntries (heapCalls k calls)) = some (held.filterMap (heapBlock k)) := by
  have same : heapEntries (heapCalls k calls) =
      (blockEntries calls).filterMap (Entry.image (heapBlock k)) := by
    unfold heapEntries heapCalls blockEntries
    rw [List.filterMap_filterMap, List.filterMap_filterMap]
    exact List.filterMap_congr fun call hcall =>
      entry_image k fun b hb => deallocate_address h (hb ▸ hcall)
  rw [same]
  exact run_image (heapBlock k) h

section
variable {κ : Type} [DecidableEq κ] [Fintype κ]

def overaligned : List (MemoryWorld.Action pairOfClients) :=
  [.act true (UniqueOwnership.Action.make (.unique ⟨2, ⟨32, 16, by decide, by decide⟩⟩ .internal) []
      (.pointer 128)),
    .act true (UniqueOwnership.Action.constructed ()),
    .act false (ContainerStorage.Action.construct true none),
    .act false (ContainerStorage.Action.refill true ⟨0, [], .pointer 64, [], true⟩),
    .change (.setProvider (some 3)), .act true (UniqueOwnership.Action.drop ()),
    .act true UniqueOwnership.Action.destructed]

theorem overaligned_proper : Meets next Proper (initial pairOfClients initialSlot) overaligned := by
  decide +kernel

end

end ESPressioSystem.DefaultMemoryProvider
