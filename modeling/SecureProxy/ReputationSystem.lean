/-
Any number of `reputation_check` calls and their helper threads, one section
at a time in any order (`reputation.c`).

A call and its helper share a `Job`. What runs under `g_mutex` or under the
job's own mutex is one step, and so is each of the others between two of
them; the clock, the provider's answer, a failed allocation or a helper that
cannot be started are part of the step's input. A step that is not possible
leaves everything as it is, so every list of steps is a run.

`puts`, and what a `Reservation` says of its own section, are history: nothing
the code does depends on them.
-/
import SecureProxy.Lib.Machine
import SecureProxy.Reputation

namespace SecureProxy

open Bytes Machine

/-- The `Job` of a lookup; `freed` counts the calls of `free` on it. -/
structure Job where
  host : List Byte
  provider : Option Nat
  refs : Int := 2
  done : Bool := false
  verdict : Int := 0
  freed : Nat := 0
  deriving DecidableEq, Repr

/-- What the first section reserved a provider call for, the clock it read
(`seenAt`) and how many results had been put into the cache before (`since`). -/
structure Reservation where
  norm : List Byte
  provider : Option Nat
  timeoutMs : Nat
  ttl : Nat
  seenAt : Int
  since : Nat
  deriving DecidableEq, Repr

/-- What is left to do once the job is released: to note what the wait ended
with (`none` for a timeout), or to undo the reservation. -/
inductive AfterRelease where
  | finish (answer : Option Int)
  | undo
  deriving DecidableEq, Repr

/-- Where a call of `reputation_check` is. -/
inductive CallerPc where
  | entering (host : List Byte)
  | reserved (r : Reservation)
  /-- The job is there, its helper is not. -/
  | starting (r : Reservation)
  | waiting (r : Reservation)
  | releasing (r : Reservation) (next : AfterRelease)
  /-- `refs` has been taken down to `left`. -/
  | dropped (r : Reservation) (next : AfterRelease) (left : Int)
  | settling (r : Reservation) (next : AfterRelease)
  | returned (r : Option Reservation) (res : ReputationResult)
  deriving DecidableEq, Repr

/-- Where its helper thread (`job_thread`) is. -/
inductive HelperPc where
  | unborn
  | calling
  | answered
  | releasing
  | dropped (left : Int)
  | ended
  deriving DecidableEq, Repr

structure Call where
  pc : CallerPc
  job : Option Job := none
  helper : HelperPc := .unborn
  deriving DecidableEq, Repr

/-- A result that went into the cache. -/
structure RepPut where
  host : List Byte
  verdict : ReputationVerdict
  now : Int
  ttl : Nat
  deriving DecidableEq, Repr

def RepPut.expires (p : RepPut) : Int := p.now + p.ttl

structure RepSystem where
  rep : RepState := {}
  calls : List Call := []
  puts : List RepPut := []
  deriving DecidableEq, Repr

/-- One step of a call, or of its helper. -/
inductive CallStep where
  | enter (now : Int)
  | prepare (alloc : Bool)
  | start (ok : Bool)
  | wake
  | drop
  | free
  | settle (now : Int)
  | answer (v : Int)
  | giveBack
  | helperDrop
  | helperFree
  deriving DecidableEq, Repr

inductive RepAction where
  | init (provider timeoutMs ttl : Nat)
  | shutdown
  | call (host : List Byte)
  | act (i : Nat) (a : CallStep)
  deriving DecidableEq, Repr

/-- What a step does: the globals and the call after it, what it put into the
cache, and the host it handed to a provider. -/
structure Moved where
  rep : RepState
  call : Call
  put : Option RepPut := none
  asked : Option (List Byte) := none
  deriving DecidableEq, Repr

/-- `--refs`, and what is left. -/
def Job.drop (j : Job) : Job := { j with refs := j.refs - 1 }

/-- The free of `job_release`, when nothing is left. -/
def Job.freeIf (j : Job) (left : Int) : Job := if left = 0 then { j with freed := j.freed + 1 } else j

/-- The first section. -/
def enterStep (g : RepState) (since : Nat) (c : Call) (now : Int) : Option Moved :=
  match c.pc with
  | .entering host =>
    match checkEnter g host now with
    | (g, .done res) => some { rep := g, call := { c with pc := .returned none res } }
    | (g, .reserved norm provider timeoutMs ttl) =>
      some { rep := g, call := { c with pc := .reserved ⟨norm, provider, timeoutMs, ttl, now, since⟩ } }
  | _ => none

/-- `calloc`, and the job filled in. -/
def prepareStep (g : RepState) (c : Call) (alloc : Bool) : Option Moved :=
  match c.pc with
  | .reserved r =>
    some { rep := g, call := if alloc then { c with pc := .starting r, job := some { host := r.norm, provider := r.provider } }
                             else { c with pc := .settling r .undo } }
  | _ => none

/-- `pthread_create`: the helper calls the provider, or the job has one owner. -/
def startStep (g : RepState) (c : Call) (ok : Bool) : Option Moved :=
  match c.pc, c.job with
  | .starting r, some j =>
    if ok then some { rep := g, call := { c with pc := .waiting r, helper := .calling }, asked := some j.host }
    else some { rep := g, call := { c with pc := .releasing r .undo, job := some { j with refs := 1 } } }
  | _, _ => none

/-- The end of the wait: an answer that is there is taken, else it is a timeout. -/
def wakeStep (g : RepState) (c : Call) : Option Moved :=
  match c.pc, c.job with
  | .waiting r, some j =>
    some { rep := g, call := { c with pc := .releasing r (.finish (if j.done then some j.verdict else none)) } }
  | _, _ => none

def dropStep (g : RepState) (c : Call) : Option Moved :=
  match c.pc, c.job with
  | .releasing r next, some j =>
    some { rep := g, call := { c with pc := .dropped r next j.drop.refs, job := some j.drop } }
  | _, _ => none

def freeStep (g : RepState) (c : Call) : Option Moved :=
  match c.pc, c.job with
  | .dropped r next left, some j =>
    some { rep := g, call := { c with pc := .settling r next, job := some (j.freeIf left) } }
  | _, _ => none

/-- What the last section puts into the cache, if anything. -/
def settledPut (g : RepState) (r : Reservation) (answer : Option Int) (now : Int) : Option RepPut :=
  let (res, cacheTtl) := checkResult answer r.ttl
  if g.enabled && cacheTtl != 0 then some ⟨r.norm, res.verdict, now, cacheTtl⟩ else none

/-- The last section. -/
def settleStep (g : RepState) (c : Call) (now : Int) : Option Moved :=
  match c.pc with
  | .settling r .undo =>
    some { rep := checkUndo g, call := { c with pc := .returned (some r) ⟨.unavailable, .error⟩ } }
  | .settling r (.finish answer) =>
    let (res, cacheTtl) := checkResult answer r.ttl
    some { rep := checkFinish g r.norm res cacheTtl now, call := { c with pc := .returned (some r) res },
           put := settledPut g r answer now }
  | _ => none

/-- The provider has answered. -/
def answerStep (g : RepState) (c : Call) (v : Int) : Option Moved :=
  match c.helper, c.job with
  | .calling, some j => some { rep := g, call := { c with helper := .answered, job := some { j with verdict := v, done := true } } }
  | _, _ => none

def giveBackStep (g : RepState) (c : Call) : Option Moved :=
  match c.helper with
  | .answered => some { rep := releaseInflight g, call := { c with helper := .releasing } }
  | _ => none

def helperDropStep (g : RepState) (c : Call) : Option Moved :=
  match c.helper, c.job with
  | .releasing, some j => some { rep := g, call := { c with helper := .dropped j.drop.refs, job := some j.drop } }
  | _, _ => none

def helperFreeStep (g : RepState) (c : Call) : Option Moved :=
  match c.helper, c.job with
  | .dropped left, some j => some { rep := g, call := { c with helper := .ended, job := some (j.freeIf left) } }
  | _, _ => none

/-- A step of one call, `none` where it is not possible. -/
def callStep (g : RepState) (since : Nat) (c : Call) : CallStep → Option Moved
  | .enter now => enterStep g since c now
  | .prepare alloc => prepareStep g c alloc
  | .start ok => startStep g c ok
  | .wake => wakeStep g c
  | .drop => dropStep g c
  | .free => freeStep g c
  | .settle now => settleStep g c now
  | .answer v => answerStep g c v
  | .giveBack => giveBackStep g c
  | .helperDrop => helperDropStep g c
  | .helperFree => helperFreeStep g c

/-- One step of the system; its answer is the host handed to a provider, if
one was. -/
def repStep (s : RepSystem) : RepAction → RepSystem × Option (List Byte)
  | .init provider timeoutMs ttl => ({ s with rep := reputationInit s.rep provider timeoutMs ttl }, none)
  | .shutdown => ({ s with rep := reputationShutdown s.rep }, none)
  | .call host => ({ s with calls := s.calls ++ [{ pc := .entering host }] }, none)
  | .act i a =>
    match s.calls[i]?.bind fun c => callStep s.rep s.puts.length c a with
    | none => (s, none)
    | some m => ({ rep := m.rep, calls := s.calls.set i m.call, puts := s.puts ++ m.put.toList }, m.asked)

/-- The state after a list of steps, from the start of the program. -/
def repRun (actions : List RepAction) : RepSystem := run repStep {} actions

end SecureProxy
