import Mathlib.Algebra.Ring.Nat
import Mathlib.Algebra.Ring.Int.Defs

/-!
# Common

What the pintool and the consumer share: the sizes of `consumer.h`, a trace buffer, the metadata
message of the hand-off, and the counts of the thread monitor.
-/

namespace BulletTime

/-- `CONSUMER_BUFFER_SIZE`. -/
def consumerBufferSize : ℕ := 1 * 1024 * 1024

/-- `CONSUMER_BUFFER_MIN`. -/
def consumerBufferMin : ℕ := 2 * 1024 * 1024

/-- `ALLOCATION_SIZE`, the size of the shared mapping. -/
def allocationSize : ℕ := max consumerBufferSize consumerBufferMin

/-- `ZSTD_BUFFER_SIZE`. -/
def zstdBufferSize : ℕ := allocationSize

/-- `WORK_OFFSET`: kernel instructions a hand-off itself costs. -/
def workOffset : ℤ := 60000

/-- `a += b` on a 64-bit word. -/
def addWord (a : ℕ) (b : ℤ) : ℕ := ((a + b) % 2 ^ 64).toNat

theorem addWord_natCast (a b : ℕ) : addWord a b = (a + b) % 2 ^ 64 := by
  have h : ((a : ℤ) + (b : ℤ)) % 2 ^ 64 = (((a + b) % 2 ^ 64 : ℕ) : ℤ) := rfl
  rw [addWord, h, Int.toNat_natCast]

theorem addWord_of_lt {a b : ℕ} (h : a + b < 2 ^ 64) : addWord a b = a + b :=
  (addWord_natCast a b).trans (Nat.mod_eq_of_lt h)

/-- `a += 1.0` on a 64-bit word: the sum is one of `double`s, which is rounded back from 2^53 on. -/
def addOne (a : ℕ) : ℕ := if a < 2 ^ 53 then a + 1 else a

theorem addOne_min (n : ℕ) : addOne (min n (2 ^ 53)) = min (n + 1) (2 ^ 53) := by
  unfold addOne
  split_ifs <;> omega

/-- The bytes of a trace buffer, which the page count of the two processes keeps within
`CONSUMER_BUFFER_SIZE`. -/
structure TraceBuffer where
  bytes : List UInt8
  fits : bytes.length ≤ consumerBufferSize
  deriving DecidableEq

/-- `send_data[7]`, received as `recv_data[7]`. -/
structure Metadata where
  dataSize : ℕ := 0
  genTime : ℕ := 0
  pinWork : ℕ := 0
  insExec : ℕ := 0
  memInsExec : ℕ := 0
  fcallsExec : ℕ := 0
  pinWait : ℕ := 0
  deriving DecidableEq

/-- `CPU_Counts`, what the thread monitor counted since the last call. -/
structure CPUCounts where
  userInstructions : ℤ
  userCycles : ℤ
  kernelInstructions : ℤ
  kernelCycles : ℤ
  multiplexingDetected : Bool := false
  deriving DecidableEq

end BulletTime
