/-
The logger among threads (`logger.c`): `g_log_fd` and `g_failures` behind
`g_log_mutex`, any number of threads in it, each in a step of its own.

A critical section goes through its steps one at a time, every `write()` and
`close()` one of them; `open()` and the request counter need no mutex. The
kernel's side is kept as history: `given` has the path of every descriptor that
was opened, `calls` what was done on them. A number that is given out again is
a new descriptor here.
-/
import SecureProxy.Lib.Mutex
import SecureProxy.LoggerFile

namespace SecureProxy

open Bytes Progs

namespace LogThreads

/-- A call on a descriptor; of a write, the bytes that were taken. -/
inductive FdCall where
  | write (fd : Nat) (taken : List Byte)
  | close (fd : Nat)
  deriving DecidableEq, Repr

def FdCall.fd : FdCall → Nat
  | .write fd _ => fd
  | .close fd => fd

/-- What `g_log_mutex` protects, and the calls made under it. -/
structure Guarded where
  fd : Option Nat := none
  failures : Nat := 0
  calls : List FdCall := []

def Guarded.call (g : Guarded) (c : FdCall) : Guarded := { g with calls := g.calls ++ [c] }

structure World where
  guarded : Guarded := {}
  nextRequestId : UInt64 := 1
  /-- The paths of the descriptors, in the order of the calls of `open()`. -/
  given : List (List Byte) := []

/-! ## What a thread asks -/

inductive LogQuery where
  | open (path : List Byte)
  | nextRequestId
  /-- The section of `logger_init`. -/
  | install (fd : Nat)
  | close
  | isEnabled
  | failureCount
  /-- The section of `log_request_ex`. -/
  | write (line : List Byte)
  deriving DecidableEq, Repr

abbrev LogQuery.Answer : LogQuery → Type
  | .open _ => Option Nat
  | .nextRequestId => UInt64
  | .install _ => Unit
  | .close => Unit
  | .isEnabled => Bool
  | .failureCount => Nat
  | .write _ => Unit

/-- What a call of the logger returned. -/
inductive Returned where
  | init (rc : Int)
  | enabled (on : Bool)
  | requestId (id : UInt64)
  | failures (n : Nat)
  deriving DecidableEq, Repr

abbrev LogProg := Prog LogQuery.Answer Returned

def LogQuery.ask (q : LogQuery) : LogProg q.Answer := Prog.query q

/-- `logger_init`; `none` is a NULL path. -/
def loggerInit : Option (List Byte) → LogProg Int
  | none | some [] => pure (-1)
  | some (b :: path) => do
    match ← (LogQuery.open (b :: path)).ask with
    | none => return -1
    | some fd => do
      (LogQuery.install fd).ask
      return 0

def loggerClose : LogProg Unit := LogQuery.close.ask

def loggerIsEnabled : LogProg Bool := LogQuery.isEnabled.ask

def loggerNextRequestId : LogProg UInt64 := LogQuery.nextRequestId.ask

def loggerFailureCount : LogProg Nat := LogQuery.failureCount.ask

/-- `log_request_ex`: the line is made between its two sections. -/
def logRequestEx (now : Option Tm) (f : LogFields) : LogProg Unit := do
  if ← loggerIsEnabled then (LogQuery.write (logLine now f)).ask else return ()

/-- One call of the logger. -/
inductive LogOp where
  | init (path : Option (List Byte))
  | close
  | isEnabled
  | nextRequestId
  | failureCount
  | request (now : Option Tm) (f : LogFields)
  deriving DecidableEq, Repr

def LogOp.run : LogOp → LogProg Unit
  | .init path => do
    let rc ← loggerInit path
    .tell (.init rc)
  | .close => loggerClose
  | .isEnabled => do
    let on ← loggerIsEnabled
    .tell (.enabled on)
  | .nextRequestId => do
    let id ← loggerNextRequestId
    .tell (.requestId id)
  | .failureCount => do
    let n ← loggerFailureCount
    .tell (.failures n)
  | .request now f => logRequestEx now f

/-- A thread, as the calls it makes. -/
def thread : List LogOp → LogProg Unit
  | [] => pure ()
  | op :: ops => do
    op.run
    thread ops

/-! ## What is done about it -/

/-- Where a thread is in a section. -/
inductive Inside where
  | install (fd : Nat)
  | store (fd : Nat)
  | close
  | clear
  | isEnabled
  | sawEnabled (on : Bool)
  | failureCount
  | sawFailures (n : Nat)
  | check (line : List Byte)
  | writing (fd : Nat) (line : List Byte) (total : Nat)
  | short (fd : Nat) (total : Nat)
  /-- The descriptor that was written to, and how many bytes it took. -/
  | done (wrote : Option (Nat × Nat))
  deriving DecidableEq, Repr

inductive Inside.Step : Inside → Guarded → Inside → Guarded → Prop
  | replace {g fd old} : g.fd = some old → Step (.install fd) g (.store fd) (g.call (.close old))
  | first {g fd} : g.fd = none → Step (.install fd) g (.store fd) g
  | store {g fd} : Step (.store fd) g (.done none) { g with fd := some fd }
  | close {g old} : g.fd = some old → Step .close g .clear (g.call (.close old))
  | closed {g} : g.fd = none → Step .close g (.done none) g
  | clear {g} : Step .clear g (.done none) { g with fd := none }
  | isEnabled {g} : Step .isEnabled g (.sawEnabled g.fd.isSome) g
  | failureCount {g} : Step .failureCount g (.sawFailures g.failures) g
  | disabled {g line} : g.fd = none → Step (.check line) g (.done none) g
  | enabled {g line fd} : g.fd = some fd → Step (.check line) g (.writing fd line 0) g
  -- the loop of `send_all`: some bytes are taken, EINTR, 0 or an error
  | took {g fd line total n} : total < line.length → 0 < n → n ≤ line.length - total →
      Step (.writing fd line total) g (.writing fd line (total + n)) (g.call (.write fd ((line.drop total).take n)))
  | eintr {g fd line total} : total < line.length →
      Step (.writing fd line total) g (.writing fd line total) (g.call (.write fd []))
  | stopped {g fd line total} : total < line.length →
      Step (.writing fd line total) g (.short fd total) (g.call (.write fd []))
  | whole {g fd line total} : line.length ≤ total → Step (.writing fd line total) g (.done (some (fd, total))) g
  | short {g fd total} : Step (.short fd total) g (.done (some (fd, total))) { g with failures := g.failures + 1 }

/-- Where the section of a question begins. -/
def enter : LogQuery → Inside
  | .install fd => .install fd
  | .close => .close
  | .isEnabled => .isEnabled
  | .failureCount => .failureCount
  | .write line => .check line
  | .open _ | .nextRequestId => .done none

/-- Where it ends, with its answer. -/
inductive Leave : (q : LogQuery) → Inside → q.Answer → Option (Nat × Nat) → Prop
  | install {fd} : Leave (.install fd) (.done none) () none
  | close : Leave .close (.done none) () none
  | isEnabled {on} : Leave .isEnabled (.sawEnabled on) on none
  | failureCount {n} : Leave .failureCount (.sawFailures n) n none
  | write {line wrote} : Leave (.write line) (.done wrote) () wrote

/-- What needs no mutex. -/
inductive Free : World → (q : LogQuery) → q.Answer → Option (Nat × Nat) → World → Prop
  | noFile {s path} : Free s (.open path) none none s
  | opened {s path} : Free s (.open path) (some s.given.length) none { s with given := s.given ++ [path] }
  | nextRequestId {s} : Free s .nextRequestId s.nextRequestId none { s with nextRequestId := s.nextRequestId + 1 }

def locked : LogQuery → Bool
  | .open _ | .nextRequestId => false
  | _ => true

/-- A section changes what the mutex protects. -/
def sectionStep (b : Inside) (s : World) (b' : Inside) (s' : World) : Prop :=
  ∃ g, Inside.Step b s.guarded b' g ∧ s' = { s with guarded := g }

def sections : Sections LogQuery.Answer Returned Unit World (List LogOp) (Option (Nat × Nat)) Inside where
  prog := thread
  locked := locked
  enter := enter
  step := sectionStep
  leave := Leave
  free := Free
  start s _ s' := s' = s

abbrev LogWorker := Worker LogQuery.Answer Returned Unit (List LogOp)
abbrev LogPool := Pool LogQuery.Answer Returned Unit World (List LogOp) (Option (Nat × Nat))
abbrev LogRun := Threads LogQuery.Answer Returned Unit World (List LogOp) (Option (Nat × Nat)) Inside

/-- What needs no mutex does not touch what the mutex protects. -/
theorem sections_movers : sections.Movers := by
  refine ⟨?_, ?_⟩
  · rintro b c b' f q a n f' ⟨g, hstep, rfl⟩ - hfree
    cases hfree with
    | noFile => exact ⟨c, .noFile, g, hstep, rfl⟩
    | @opened path => exact ⟨{ c with given := c.given ++ [path] }, .opened, g, hstep, rfl⟩
    | nextRequestId => exact ⟨{ c with nextRequestId := c.nextRequestId + 1 }, .nextRequestId, g, hstep, rfl⟩
  · rintro b c b' f x f' ⟨g, hstep, rfl⟩ rfl
    exact ⟨c, rfl, g, hstep, rfl⟩

end LogThreads

end SecureProxy
