import ESPressioSystem.SharedObject
import ESPressioSystem.Platform

set_option autoImplicit false
namespace ESPressioSystem.SynchronizationProvider

/-- The identity of an `ISynchronizationProvider`. -/
abbrev ProviderId := ℕ

/-- The atomic pointer of `ProviderStorage`; `none` is null. -/
abbrev ProviderStorage := Option ProviderId

def initialStorage : ProviderStorage := none
def provider (storage : ProviderStorage) : Option ProviderId := storage
def setProvider (_ : ProviderStorage) (provider : Option ProviderId) : ProviderStorage := provider
def resetProvider (_ : ProviderStorage) : ProviderStorage := none

inductive ProviderChange where
  | setProvider (provider : Option ProviderId)
  | resetProvider
  deriving DecidableEq, Repr

def ProviderChange.apply (storage : ProviderStorage) : ProviderChange → ProviderStorage
  | .setProvider p => SynchronizationProvider.setProvider storage p
  | .resetProvider => SynchronizationProvider.resetProvider storage

/-- The factory functions of a provider; none of them is declared `noexcept`. -/
inductive Factory where
  | createBinarySignal (initiallySet : Bool)
  | createMutex
  | createRecursiveMutex
  | createReadWriteLock
  deriving DecidableEq, Repr

inductive Outcome where
  | object
  | null
  | exception
  deriving DecidableEq, Repr

structure FactoryCall where
  provider : ProviderId
  factory : Factory
  deriving DecidableEq, Repr

end ESPressioSystem.SynchronizationProvider
