import Mathlib

/-! Return codes, flags, limits and the task record, as `error.h` and `types.h`
declare them. -/
namespace Ggmk

def gmkOk : ℤ := 0
def gmkRetry : ℤ := 1
def gmkFail (code : ℕ) : ℤ := -(code : ℤ)

def gmkErrNomem : ℕ := 1
def gmkErrFull : ℕ := 2
def gmkErrInvalid : ℕ := 4
def gmkErrNotFound : ℕ := 5
def gmkErrExists : ℕ := 6
def gmkErrClosed : ℕ := 7
def gmkErrPoisoned : ℕ := 8
def gmkErrYieldOverflow : ℕ := 9
def gmkErrYieldLimit : ℕ := 10
def gmkErrAlreadyBound : ℕ := 12

def gmkChanFull : ℤ := gmkFail gmkErrFull
def gmkChanClosed : ℤ := gmkFail gmkErrClosed
def gmkChanAlreadyBound : ℤ := gmkFail gmkErrAlreadyBound

def gmkTfPriorityMask : UInt16 := 0x0003
def gmkTfChannelMsg : UInt16 := 0x0020
def gmkTfPayloadRc : UInt16 := 0x0040

def gmkPriorityCount : ℕ := 4
def gmkPrioCritical : ℕ := 0
def gmkPrioLow : ℕ := 3

def gmkChanP2p : ℕ := 0x0001
def gmkChanFanout : ℕ := 0x0002
def gmkChanLossy : ℕ := 0x0000
def gmkChanLossless : ℕ := 0x0010

def gmkMaxChannels : ℕ := 256
def gmkMaxModules : ℕ := 64
def gmkMaxHandlers : ℕ := 256
def gmkMaxWorkers : ℕ := 32
def gmkMaxTenants : ℕ := 16
def gmkMaxChanSubs : ℕ := 32
def gmkMaxChanName : ℕ := 64

def gmkRqDefaultCap : ℕ := 4096
def gmkLqDefaultCap : ℕ := 1024
def gmkEvqDefaultCap : ℕ := 64 * 1024
def gmkChanDefaultSlots : ℕ := 1024
def gmkOverflowCap : ℕ := 4096

def gmkLqYieldReservePct : ℕ := 25
def gmkDefaultMaxYields : ℕ := 16
def gmkEvqDrainLimit : ℕ := 256
def gmkChanPriorityReservePct : ℕ := 10
def gmkPoisonThreshold : ℕ := 16

def gmkChanSysDropped : ℕ := 1

/-- The 48-byte task record. Its alignment padding carries no information. -/
structure Task where
  type : UInt32 := 0
  flags : UInt16 := 0
  tenant : UInt16 := 0
  channel : UInt32 := 0
  seq : UInt32 := 0
  payloadPtr : UInt64 := 0
  payloadLen : UInt32 := 0
  yieldCount : UInt16 := 0
  meta0 : UInt64 := 0
  meta1 : UInt64 := 0
  deriving DecidableEq, Repr, Inhabited

/-- `GMK_PRIORITY(flags)`: 0 is the highest of the four priorities. -/
def gmkPriority (flags : UInt16) : ℕ := (flags &&& gmkTfPriorityMask).toNat

theorem gmkPriority_lt (flags : UInt16) : gmkPriority flags < gmkPriorityCount := by
  have h : (flags &&& gmkTfPriorityMask).toNat ≤ 3 := by
    rw [UInt16.toNat_and]
    exact Nat.and_le_right
  unfold gmkPriority gmkPriorityCount
  omega

namespace Task

def prio (t : Task) : ℕ := gmkPriority t.flags

theorem prio_lt (t : Task) : t.prio < gmkPriorityCount := gmkPriority_lt t.flags

/-- The test `(flags & GMK_TF_PAYLOAD_RC) && payload_ptr` that guards every
retain and release of the runtime. -/
def hasRc (t : Task) : Bool := (t.flags &&& gmkTfPayloadRc) ≠ 0 && t.payloadPtr ≠ 0

/-- The task apart from the sequence number that each enqueue stamps on it. -/
def content (t : Task) : Task := { t with seq := 0 }

@[simp] theorem content_prio (t : Task) : t.content.prio = t.prio := rfl
@[simp] theorem content_hasRc (t : Task) : t.content.hasRc = t.hasRc := rfl
@[simp] theorem content_payloadPtr (t : Task) : t.content.payloadPtr = t.payloadPtr := rfl

@[simp] theorem content_withSeq (t : Task) (n : UInt32) :
    content { t with seq := n } = t.content := rfl

@[simp] theorem prio_withSeq (t : Task) (n : UInt32) :
    prio { t with seq := n } = t.prio := rfl

@[simp] theorem hasRc_withSeq (t : Task) (n : UInt32) :
    hasRc { t with seq := n } = t.hasRc := rfl

end Task
end Ggmk
