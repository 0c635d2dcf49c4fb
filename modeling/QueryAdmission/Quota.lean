import Std.Data.ExtHashMap
import QueryAdmission.Breach
import QueryAdmission.Settings.Basic

/-! Quotas of requests by client.

A client's window opens with its first request and lasts for a fixed time. Requests in the window
are counted, also those that are refused; those beyond the limit are refused until the window has
elapsed, and the next request opens a new one. Instants are nanoseconds from some fixed moment and
need not increase. -/

namespace QueryAdmission

structure Window where
  start : Int
  count : Nat
  deriving DecidableEq, Repr

namespace Window

/-- The greatest count; further requests leave it. -/
def maxCount : Nat := UInt32.size - 1

/-- A window that opens with a request. -/
def opened (now : Int) : Window := ⟨now, 1⟩

/-- The time since the opening; none before it. -/
def age (w : Window) (now : Int) : Nat := (now - w.start).toNat

def hasElapsed (w : Window) (length : Nat) (now : Int) : Bool := length ≤ w.age now

/-- The time until the window has elapsed. -/
def timeLeft (w : Window) (length : Nat) (now : Int) : Nat := length - w.age now

/-- The window after a request in it, or the new one that the request opens. -/
def request (w : Window) (length : Nat) (now : Int) : Window :=
  if w.hasElapsed length now then opened now else { w with count := min (w.count + 1) maxCount }

end Window

/-- The answer to one request. Times are in nanoseconds. -/
inductive Decision where
  | allowed (remaining : Nat) (resetIn : Nat)
  | limited (breach : Breach) (retryAfter : Nat)
  deriving DecidableEq, Repr

structure Quota where
  /-- Requests allowed in a window. -/
  limit : Nat
  /-- The time that a window lasts. -/
  length : Nat
  windows : Std.ExtHashMap String Window

namespace Quota

def ofSettings (s : RateSettings) : Quota := ⟨s.limit.toNat, s.window, ∅⟩

/-- The window of a client, if it has one. -/
def window? (q : Quota) (client : String) : Option Window := q.windows[client]?

/-- The window of a client after a request of that client. -/
def windowAfter (q : Quota) (client : String) (now : Int) : Window :=
  match q.window? client with
  | none => .opened now
  | some w => w.request q.length now

/-- The answer to the request that was counted last in a window. -/
def decide (q : Quota) (w : Window) (now : Int) : Decision :=
  if q.limit < w.count then .limited ⟨.rate, w.count, q.limit⟩ (w.timeLeft q.length now)
  else .allowed (q.limit - w.count) (w.timeLeft q.length now)

/-- Counts a request of a client and answers it. -/
def check (q : Quota) (client : String) (now : Int) : Decision × Quota :=
  let w := q.windowAfter client now
  (q.decide w now, { q with windows := q.windows.insert client w })

/-- The number of clients with a window. -/
def tracked (q : Quota) : Nat := q.windows.size

/-- Forgets the windows that have elapsed. -/
def withoutElapsed (q : Quota) (now : Int) : Quota :=
  { q with windows := q.windows.filter fun _ w => !w.hasElapsed q.length now }

/-- Forgets the windows that have elapsed, and tells how many they were. -/
def evict (q : Quota) (now : Int) : Nat × Quota :=
  let kept := q.withoutElapsed now
  (q.tracked - kept.tracked, kept)

end Quota

end QueryAdmission
