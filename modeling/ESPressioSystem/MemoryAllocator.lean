import ESPressioSystem.MemoryProvider

set_option autoImplicit false

/-!
# `Allocator<T, Policy>`
-/
namespace ESPressioSystem.MemoryAllocator
open Transition Ledger MemoryProvider

/-- The size and alignment of an object type, where `std::size_t` goes up to `sizeMax`. -/
structure ElementType (sizeMax : ℕ) where
  size : ℕ
  alignment : ℕ
  size_pos : 0 < size
  size_le : size ≤ sizeMax
  deriving DecidableEq

inductive AllocationError where
  | badArrayNewLength
  | providerException
  deriving DecidableEq, Repr

section
variable {sizeMax : ℕ}

structure Allocator (T : ElementType sizeMax) (P : MemoryPolicy) where
  provider : Option ProviderId
  deriving DecidableEq

/-- A call of `allocate`: the allocator and the providers afterwards, and the pointer
returned or the exception thrown. -/
structure Allocated (T : ElementType sizeMax) (P : MemoryPolicy) where
  allocator : Allocator T P
  memory : Memory
  result : Except AllocationError ℕ

variable {T U : ElementType sizeMax} {P : MemoryPolicy}

def Allocator.unbound : Allocator T P := ⟨none⟩
def Allocator.boundTo (provider : ProviderId) : Allocator T P := ⟨some provider⟩

/-- The converting constructor from `Allocator<U, Policy>`. -/
def Allocator.rebind (a : Allocator T P) (U : ElementType sizeMax) : Allocator U P := ⟨a.provider⟩

/-- `Provider()` -/
def Allocator.effectiveProvider (a : Allocator T P) (slot : ProviderSlot) : ProviderId :=
  match a.provider with
  | some p => p
  | none => getProvider slot

def Allocator.isProviderBound (a : Allocator T P) : Bool := a.provider.isSome

/-- `operator==` -/
def Allocator.equals (a : Allocator T P) (b : Allocator U P) (slot : ProviderSlot) : Bool :=
  a.effectiveProvider slot == b.effectiveProvider slot

def Allocator.bindProvider (a : Allocator T P) (slot : ProviderSlot) : Allocator T P :=
  match a.provider with
  | some _ => a
  | none => ⟨some (getProvider slot)⟩

/-- `count * sizeof(T)` in `std::size_t` -/
def byteCount (T : ElementType sizeMax) (count : ℕ) : ℕ := count * T.size % (sizeMax + 1)

def request (T : ElementType sizeMax) (P : MemoryPolicy) (provider : ProviderId) (count : ℕ) :
    Request :=
  ⟨provider, byteCount T count, T.alignment, P⟩

/-- The provider may be changed between the binding and the call of `Allocate`. -/
def Allocator.allocate (a : Allocator T P) (count : ℕ) (between : List ProviderChange)
    (answer : Answer) (m : Memory) : Allocated T P :=
  if count > sizeMax / T.size then ⟨a, m, .error .badArrayNewLength⟩
  else
    let bound := a.bindProvider m.slot
    let provider := bound.effectiveProvider m.slot
    let after := (m.change between).allocate (request T P provider count) answer
    match answer with
    | .pointer address => ⟨bound, after, .ok address⟩
    | .exception => ⟨bound, after, .error .providerException⟩

def Allocator.deallocate (a : Allocator T P) (pointer count : ℕ) (m : Memory) : Memory :=
  if pointer = 0 then m
  else m.deallocate ⟨request T P (a.effectiveProvider m.slot) count, pointer⟩

@[simp] theorem rebind_effectiveProvider (a : Allocator T P) (slot : ProviderSlot) :
    (a.rebind U).effectiveProvider slot = a.effectiveProvider slot := rfl

theorem bindProvider_provider (a : Allocator T P) (slot : ProviderSlot) :
    (a.bindProvider slot).provider = some (a.effectiveProvider slot) := by
  obtain ⟨provider⟩ := a
  cases provider <;> rfl

theorem bindProvider_effectiveProvider (a : Allocator T P) (slot slot' : ProviderSlot) :
    (a.bindProvider slot).effectiveProvider slot' = a.effectiveProvider slot := by
  obtain ⟨provider⟩ := a
  cases provider <;> rfl

theorem effectiveProvider_bound {a : Allocator T P} {p : ProviderId} (h : a.provider = some p)
    (slot : ProviderSlot) : a.effectiveProvider slot = p := by
  simp only [Allocator.effectiveProvider, h]

theorem effectiveProvider_unbound {a : Allocator T P} (h : a.provider = none)
    (slot : ProviderSlot) : a.effectiveProvider slot = getProvider slot := by
  simp only [Allocator.effectiveProvider, h]

/-- The length check keeps the product from wrapping. -/
theorem byteCount_eq (T : ElementType sizeMax) {count : ℕ} (h : ¬ count > sizeMax / T.size) :
    byteCount T count = count * T.size := by
  have hle : count * T.size ≤ sizeMax := (Nat.le_div_iff_mul_le T.size_pos).mp (by omega)
  exact Nat.mod_eq_of_lt (by omega)

theorem one_fits (T : ElementType sizeMax) : ¬ 1 > sizeMax / T.size := by
  have hpos : 0 < sizeMax / T.size := Nat.div_pos T.size_le T.size_pos
  omega

theorem allocate_oversized {a : Allocator T P} {count : ℕ} (h : count > sizeMax / T.size)
    (between : List ProviderChange) (answer : Answer) (m : Memory) :
    a.allocate count between answer m = ⟨a, m, .error .badArrayNewLength⟩ :=
  if_pos h

theorem allocate_pointer {a : Allocator T P} {count : ℕ} (h : ¬ count > sizeMax / T.size)
    (between : List ProviderChange) (address : ℕ) (m : Memory) :
    a.allocate count between (.pointer address) m =
      ⟨a.bindProvider m.slot,
        (m.change between).allocate (request T P (a.effectiveProvider m.slot) count)
          (.pointer address),
        .ok address⟩ := by
  simp only [Allocator.allocate, if_neg h, bindProvider_effectiveProvider]

theorem allocate_exception {a : Allocator T P} {count : ℕ} (h : ¬ count > sizeMax / T.size)
    (between : List ProviderChange) (m : Memory) :
    a.allocate count between .exception m =
      ⟨a.bindProvider m.slot,
        (m.change between).allocate (request T P (a.effectiveProvider m.slot) count) .exception,
        .error .providerException⟩ := by
  simp only [Allocator.allocate, if_neg h, bindProvider_effectiveProvider]

theorem deallocate_pointer {a : Allocator T P} {pointer : ℕ} (h : pointer ≠ 0) (count : ℕ)
    (m : Memory) :
    a.deallocate pointer count m =
      m.deallocate ⟨request T P (a.effectiveProvider m.slot) count, pointer⟩ :=
  if_neg h

theorem deallocate_null (a : Allocator T P) (count : ℕ) (m : Memory) :
    a.deallocate 0 count m = m :=
  if_pos rfl

def storageBlocks (T : ElementType sizeMax) (P : MemoryPolicy) (provider : ProviderId)
    (pointer count : ℕ) : Multiset Block :=
  if pointer = 0 then 0 else {⟨request T P provider count, pointer⟩}

theorem storageBlocks_null (p : ProviderId) (count : ℕ) : storageBlocks T P p 0 count = 0 :=
  if_pos rfl

/-- An allocation moves no bound allocator to another provider. -/
theorem allocate_bound {a : Allocator T P} {p : ProviderId} (h : a.provider = some p) (count : ℕ)
    (between : List ProviderChange) (answer : Answer) (m : Memory) :
    (a.allocate count between answer m).allocator.provider = some p := by
  have kept : (a.bindProvider m.slot).provider = some p := by
    rw [bindProvider_provider, effectiveProvider_bound h]
  by_cases hcount : count > sizeMax / T.size
  · rw [allocate_oversized hcount]
    exact h
  · cases answer with
    | pointer address =>
      rw [allocate_pointer hcount]
      exact kept
    | exception =>
      rw [allocate_exception hcount]
      exact kept

theorem allocate_ok {a : Allocator T P} {count pointer : ℕ} {between : List ProviderChange}
    {answer : Answer} {m : Memory} {held : Multiset Block}
    (h : (a.allocate count between answer m).result = .ok pointer)
    (ho : outstanding m.calls = some held) :
    ∃ p, (a.allocate count between answer m).allocator.provider = some p ∧
      outstanding (a.allocate count between answer m).memory.calls =
        some (storageBlocks T P p pointer count + held) := by
  have changed : outstanding (m.change between).calls = some held := ho
  by_cases hcount : count > sizeMax / T.size
  · rw [allocate_oversized hcount] at h
    cases h
  · cases answer with
    | exception =>
      rw [allocate_exception hcount] at h
      cases h
    | pointer address =>
      rw [allocate_pointer hcount] at h ⊢
      have haddress : address = pointer := Except.ok.inj h
      subst haddress
      refine ⟨_, bindProvider_provider a m.slot, ?_⟩
      rw [outstanding_allocate _ _ changed]
      cases address with
      | zero => rw [storageBlocks_null, zero_add]; rfl
      | succ n => rfl

theorem allocate_error {a : Allocator T P} {count : ℕ} {between : List ProviderChange}
    {answer : Answer} {m : Memory} {held : Multiset Block} {e : AllocationError}
    (h : (a.allocate count between answer m).result = .error e)
    (ho : outstanding m.calls = some held) :
    outstanding (a.allocate count between answer m).memory.calls = some held := by
  have changed : outstanding (m.change between).calls = some held := ho
  by_cases hcount : count > sizeMax / T.size
  · rw [allocate_oversized hcount]
    exact ho
  · cases answer with
    | pointer address =>
      rw [allocate_pointer hcount] at h
      cases h
    | exception =>
      rw [allocate_exception hcount]
      exact outstanding_allocate _ .exception changed

theorem deallocate_outstanding {a : Allocator T P} {p : ProviderId} {pointer count : ℕ} {m : Memory}
    {held : Multiset Block} (bound : pointer ≠ 0 → a.provider = some p)
    (ho : outstanding m.calls = some (storageBlocks T P p pointer count + held)) :
    outstanding (a.deallocate pointer count m).calls = some held := by
  by_cases hpointer : pointer = 0
  · subst hpointer
    rw [storageBlocks_null, zero_add] at ho
    rw [deallocate_null]
    exact ho
  · rw [deallocate_pointer hpointer, effectiveProvider_bound (bound hpointer)]
    rw [storageBlocks, if_neg hpointer, Multiset.singleton_add] at ho
    exact outstanding_deallocate _ ho

end

/-- Types of a platform with a 32-bit `std::size_t`. -/
def byteType : ElementType 0xFFFFFFFF := ⟨1, 1, by decide, by decide⟩
def wordType : ElementType 0xFFFFFFFF := ⟨4, 4, by decide, by decide⟩

end ESPressioSystem.MemoryAllocator
