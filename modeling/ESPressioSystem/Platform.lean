import Mathlib.Data.Int.Notation

set_option autoImplicit false
namespace ESPressioSystem.Platform

inductive PlatformStatus where
  | success
  | unsupported
  | unavailable
  | invalidArgument
  | busy
  | conflict
  | outOfMemory
  | timeout
  | hardwareFailure
  | unknown
  deriving DecidableEq, Repr

structure PlatformResult where
  status : PlatformStatus
  nativeCode : ℤ
  deriving DecidableEq, Repr

def succeeded : PlatformResult := ⟨.success, 0⟩

def failed (status : PlatformStatus) (nativeCode : ℤ) : PlatformResult := ⟨status, nativeCode⟩

/-- The explicit conversion to `bool`. -/
def PlatformResult.isSuccess (r : PlatformResult) : Bool := r.status == .success

end ESPressioSystem.Platform
