import ESPressioSystem.Transition
import ESPressioSystem.Ledger
import ESPressioSystem.SharedObject
import ESPressioSystem.LazyLock
import ESPressioSystem.LazyLockInvariant
import ESPressioSystem.Locks
import ESPressioSystem.DeferredSignal
import ESPressioSystem.DeferredSignalInvariant
import ESPressioSystem.DeferredSignalPublication
import ESPressioSystem.MemoryProvider
import ESPressioSystem.MemoryAllocator
import ESPressioSystem.SharedOwnership
import ESPressioSystem.AllocatorEquality
import ESPressioSystem.ContainerStorage
import ESPressioSystem.UniqueOwnership
import ESPressioSystem.UniqueOwnershipPairing
import ESPressioSystem.UniqueOwnershipLedger
import ESPressioSystem.AllocationFailure
import ESPressioSystem.ByteOutput
import ESPressioSystem.SequentialResolution
import ESPressioSystem.DeferredEquivalence
import ESPressioSystem.ExceptionBoundary
import ESPressioSystem.ResolutionAlone
import ESPressioSystem.OnceOnlyResolution
import ESPressioSystem.LazyLockRefinement
import ESPressioSystem.DeferredSignalRefinement
import ESPressioSystem.LazyLockProgress
import ESPressioSystem.MemoryWorld
import ESPressioSystem.DefaultMemoryProvider
import ESPressioSystem.SharedPointers
import ESPressioSystem.ProviderRetirement
import ESPressioSystem.DeferredSignalProgress
import ESPressioSystem.Components
import ESPressioSystem.SynchronizationWorld
import ESPressioSystem.LineFraming
import ESPressioSystem.LineOutput
import ESPressioSystem.LockedData
import ESPressioSystem.MonotonicClock
import ESPressioSystem.ProviderPublication
import ESPressioSystem.WeakLazyLock
import ESPressioSystem.SpinFlag
import ESPressioSystem.WeakLazyLockInvariant
import ESPressioSystem.WeakLockWorld
import ESPressioSystem.LockProtectedData
import ESPressioSystem.LockMemoryOrders
