/-
The lines threads log: each file has those of the calls that wrote to it, one
after the other.
-/
import SecureProxy.LoggerThreadsFacts

namespace SecureProxy

open Bytes Progs

namespace LogThreads

/-- A line that was to be written, and how much of it was. -/
structure LineWrite where
  fd : Nat
  line : List Byte
  taken : Nat
  deriving DecidableEq, Repr

abbrev LogLog := List (LogEntry LogQuery.Answer Returned (Option (Nat × Nat)))

def writeOf (x : LogEntry LogQuery.Answer Returned (Option (Nat × Nat))) : Option LineWrite :=
  match x.obs, x.note with
  | .asked (.write line) _, some (some (fd, taken)) => some ⟨fd, line, taken⟩
  | .asked .., _ | .said _, _ => none

/-- The writes whose sections are over, in the order in which they ended. -/
def writesOf (log : LogLog) : List LineWrite := log.filterMap writeOf

/-- What the descriptors of a file were made to take. -/
def textOf (mine : Nat → Bool) (calls : List FdCall) : List Byte :=
  calls.flatMap fun c => if mine c.fd then c.taken else []

def linesText (mine : Nat → Bool) (ws : List LineWrite) : List Byte :=
  ws.flatMap fun w => if mine w.fd then w.line.take w.taken else []

def LineWrite.isShort (w : LineWrite) : Bool := decide (w.taken < w.line.length)

structure LinesInv (g : Guarded) (ws : List LineWrite) : Prop where
  text : ∀ mine, textOf mine g.calls = linesText mine ws
  failures : g.failures = ws.countP LineWrite.isShort
  taken : ∀ w ∈ ws, w.taken ≤ w.line.length

theorem textOf_append (mine : Nat → Bool) (calls calls' : List FdCall) :
    textOf mine (calls ++ calls') = textOf mine calls ++ textOf mine calls' :=
  List.flatMap_append

theorem Taken.textOf {fd : Nat} {text : List Byte} {ws : List FdCall} (h : Taken fd text ws) (mine : Nat → Bool) :
    textOf mine ws = if mine fd then text else [] := by
  have hfd : ∀ c ∈ ws, (if mine c.fd then c.taken else []) = if mine fd then c.taken else [] := by
    intro c hc
    obtain ⟨bs, rfl⟩ := h.writes c hc
    rfl
  unfold LogThreads.textOf
  rw [List.flatMap_congr hfd]
  split
  · exact h.text
  · simp

theorem LinesInv.write {g : Guarded} {ws : List LineWrite} (h : LinesInv g ws) {fd total : Nat} {line : List Byte}
    {calls : List FdCall} (htaken : Taken fd (line.take total) calls) (hle : total ≤ line.length) {failures : Nat}
    (hf : failures = g.failures + if total < line.length then 1 else 0) :
    LinesInv { g with calls := g.calls ++ calls, failures } (ws ++ [⟨fd, line, total⟩]) := by
  refine ⟨fun mine => ?_, ?_, fun w hw => ?_⟩
  · show textOf mine (g.calls ++ calls) = _
    rw [textOf_append, h.text, htaken.textOf]
    simp [linesText]
  · show failures = _
    rw [hf, h.failures, List.countP_append]
    simp [LineWrite.isShort]
  · rcases List.mem_append.1 hw with hw | hw
    · exact h.taken w hw
    · rw [List.mem_singleton.1 hw]
      exact hle

/-- A descriptor that is closed or exchanged takes nothing. -/
theorem LinesInv.close {g : Guarded} {ws : List LineWrite} (h : LinesInv g ws) (old : Nat) (fd : Option Nat) :
    LinesInv { g.call (.close old) with fd } ws := by
  refine ⟨fun mine => ?_, h.failures, h.taken⟩
  show textOf mine (g.calls ++ [.close old]) = _
  rw [textOf_append, ← h.text]
  simp [textOf, FdCall.taken]

theorem LinesInv.install {g : Guarded} {ws : List LineWrite} (h : LinesInv g ws) (fd : Option Nat) :
    LinesInv { g with fd } ws :=
  ⟨h.text, h.failures, h.taken⟩

theorem writesOf_append (log log' : LogLog) : writesOf (log ++ log') = writesOf log ++ writesOf log' :=
  List.filterMap_append

theorem LinesInv.step {P P' : LogPool} (h : LinesInv P.shared.guarded (writesOf P.log))
    (hstep : Pool.Step sections.service P P') : LinesInv P'.shared.guarded (writesOf P'.log) := by
  cases hstep with
  | start hstart =>
    obtain rfl := hstart
    exact h
  | say hw =>
    rw [writesOf_append]
    exact (List.append_nil _).symm ▸ h
  | @ask s s' ws log i x q k a n hw hserve =>
    rw [writesOf_append]
    cases hserve with
    | free hq hfree => cases hfree <;> exact (List.append_nil _).symm ▸ h
    | «section» hq hsteps hleave =>
      obtain ⟨g, hreached, rfl⟩ := reached_steps hq hsteps
      cases hleave with
      | install =>
        refine (List.append_nil (writesOf log)).symm ▸ ?_
        cases hreached with
        | installedOver hold => exact h.close _ _
        | installed hnone => exact h.install _
      | close =>
        refine (List.append_nil (writesOf log)).symm ▸ ?_
        cases hreached with
        | cleared hold => exact h.close _ _
        | closed hnone => exact h
      | isEnabled =>
        cases hreached
        exact (List.append_nil (writesOf log)).symm ▸ h
      | failureCount =>
        cases hreached
        exact (List.append_nil (writesOf log)).symm ▸ h
      | @write line _ =>
        cases hreached with
        | disabled hnone => exact (List.append_nil (writesOf log)).symm ▸ h
        | whole hfd htaken =>
          exact h.write ((List.take_length (l := line)).symm ▸ htaken) (Nat.le_refl _) (by simp)
        | counted hfd hlt htaken => exact h.write htaken hlt.le (by simp [hlt])
  | outside hout => exact hout.elim

theorem LinesInv.reach {P : LogPool} (h : Pool.Reach sections.service {} P) :
    LinesInv P.shared.guarded (writesOf P.log) :=
  h.invariant (fun P => LinesInv P.shared.guarded (writesOf P.log)) ⟨fun _ => rfl, rfl, by simp [writesOf]⟩
    fun _ _ ih hs _ => ih.step hs

/-- A line a thread writes is one of its own requests. -/
def OwnLine (ops : List LogOp) : LogQuery → Prop
  | .write line => ∃ now f, .request now f ∈ ops ∧ line = logLine now f
  | _ => True

theorem thread_ownLine (ops : List LogOp) : (thread ops).All (OwnLine ops) fun _ => True := by
  induction ops with
  | nil => trivial
  | cons op ops ih =>
    have hrest : (thread ops).All (OwnLine (op :: ops)) fun _ => True := by
      refine ih.mono (fun q hq => ?_) fun _ h => h
      cases q with
      | write line =>
        obtain ⟨now, f, hmem, hline⟩ := hq
        exact ⟨now, f, List.mem_cons_of_mem _ hmem, hline⟩
      | _ => trivial
    cases op with
    | init path =>
      rcases path with _ | (_ | ⟨b, path⟩)
      · exact ⟨trivial, hrest⟩
      · exact ⟨trivial, hrest⟩
      · refine ⟨trivial, fun fd => ?_⟩
        cases fd with
        | none => exact ⟨trivial, hrest⟩
        | some fd => exact ⟨trivial, fun _ => ⟨trivial, hrest⟩⟩
    | close => exact ⟨trivial, fun _ => hrest⟩
    | isEnabled => exact ⟨trivial, fun _ => ⟨trivial, hrest⟩⟩
    | nextRequestId => exact ⟨trivial, fun _ => ⟨trivial, hrest⟩⟩
    | failureCount => exact ⟨trivial, fun _ => ⟨trivial, hrest⟩⟩
    | request now f =>
      refine ⟨trivial, fun on => ?_⟩
      cases on with
      | false => exact hrest
      | true => exact ⟨⟨now, f, by simp, rfl⟩, fun _ => hrest⟩

/-- Each write is of a line that its thread was to log. -/
theorem writesOf_ownLine {P : LogPool} (h : Pool.Reach sections.service {} P) {w : LineWrite} (hw : w ∈ writesOf P.log) :
    ∃ thread ∈ P.workers, ∃ now f, .request now f ∈ thread.seed ∧ w.line = logLine now f := by
  obtain ⟨x, hx, hwrite⟩ := List.mem_filterMap.1 hw
  unfold writeOf at hwrite
  split at hwrite
  · rename_i line _ fd taken hobs hnote
    obtain rfl := Option.some.inj hwrite
    obtain ⟨worker, hworker⟩ := h.worker hx
    have hpast : .asked (.write line) _ ∈ past P.log x.worker :=
      List.mem_filterMap.2 ⟨x, hx, by rw [if_pos rfl, hobs]⟩
    obtain ⟨now, f, hmem, hline⟩ := ((h.sound.leads x.worker worker hworker).all (thread_ownLine worker.seed)).2 _ _ hpast
    exact ⟨worker, List.mem_of_getElem? hworker, now, f, hmem, hline⟩
  · cases hwrite
  · cases hwrite

/-- What a section has added so far. -/
theorem Reached.text {g g' : Guarded} {q : LogQuery} {b : Inside} (h : Reached g q b g') (mine : Nat → Bool) :
    ∃ part, textOf mine g'.calls = textOf mine g.calls ++ part ∧ (part ≠ [] → ∃ line, q = .write line ∧ part <+: line) ∧
      g.failures ≤ g'.failures := by
  have hclose : ∀ old, textOf mine (g.calls ++ [.close old]) = textOf mine g.calls ++ [] := by
    intro old
    rw [textOf_append]
    simp [textOf, FdCall.taken]
  have hwrote : ∀ {fd total : Nat} {line : List Byte} {ws : List FdCall}, Taken fd (line.take total) ws →
      ∃ part, textOf mine (g.calls ++ ws) = textOf mine g.calls ++ part ∧ part <+: line := by
    intro fd total line ws htaken
    refine ⟨_, textOf_append .., ?_⟩
    rw [htaken.textOf]
    split
    · exact List.take_prefix ..
    · exact List.nil_prefix
  cases h with
  | replaced => exact ⟨[], hclose _, by simp, Nat.le_refl _⟩
  | installedOver => exact ⟨[], hclose _, by simp, Nat.le_refl _⟩
  | closing => exact ⟨[], hclose _, by simp, Nat.le_refl _⟩
  | cleared => exact ⟨[], hclose _, by simp, Nat.le_refl _⟩
  | writing _ _ htaken =>
    obtain ⟨part, htext, hpre⟩ := hwrote htaken
    exact ⟨part, htext, fun _ => ⟨_, rfl, hpre⟩, Nat.le_refl _⟩
  | short _ _ htaken =>
    obtain ⟨part, htext, hpre⟩ := hwrote htaken
    exact ⟨part, htext, fun _ => ⟨_, rfl, hpre⟩, Nat.le_refl _⟩
  | @whole fd line ws _ htaken =>
    obtain ⟨part, htext, hpre⟩ := hwrote ((List.take_length (l := line)).symm ▸ htaken)
    exact ⟨part, htext, fun _ => ⟨_, rfl, hpre⟩, Nat.le_refl _⟩
  | counted _ _ htaken =>
    obtain ⟨part, htext, hpre⟩ := hwrote htaken
    exact ⟨part, htext, fun _ => ⟨_, rfl, hpre⟩, Nat.le_succ _⟩
  | _ => exact ⟨[], by simp, by simp, Nat.le_refl _⟩

/-- What a file holds. -/
def fileText (s : World) (path : List Byte) : List Byte :=
  textOf (fun fd => s.given[fd]? == some path) s.guarded.calls

/-- A whole section does what `logRequestEx` does at once, for some answers of
`write()`. -/
theorem serves_logRequestEx {s s' : World} {line : List Byte} {n : Option (Nat × Nat)}
    (h : sections.Serves s (.write line) () n s') :
    ∃ writes, ∀ now f, logLine now f = line → SecureProxy.logRequestEx
        ⟨s.guarded.fd.isSome, textOf (fun _ => true) s.guarded.calls, s.guarded.failures⟩ ⟨now, f, writes⟩ =
      ⟨s'.guarded.fd.isSome, textOf (fun _ => true) s'.guarded.calls, s'.guarded.failures⟩ := by
  cases h with
  | free hq => cases hq
  | «section» hq hsteps hleave =>
    obtain ⟨g, hreached, rfl⟩ := @reached_steps (.write line) hq _ _ _ hsteps
    cases hleave
    cases hreached with
    | disabled hnone => exact ⟨[], fun now f _ => by simp [SecureProxy.logRequestEx, hnone]⟩
    | whole hfd htaken =>
      obtain ⟨hrc, hacc⟩ := (@sendAllLoop_writtenBefore [] 0 line).2 (by simp [writtenBefore])
      refine ⟨[], fun now f hline => ?_⟩
      simp only [SecureProxy.logRequestEx, LogCall.line, sendAll, hline, hrc, hacc, hfd, textOf_append, htaken.textOf]
      simp
    | @counted fd _ total ws hfd hlt htaken =>
      have hwritten : writtenBefore (if total = 0 then [.err] else [.ret total, .err]) = some total := by
        by_cases hzero : total = 0 <;> simp [writtenBefore, hzero]
      obtain ⟨hrc, hacc⟩ := (@sendAllLoop_writtenBefore _ 0 line).1 total hwritten hlt
      rw [Nat.zero_add] at hrc
      refine ⟨if total = 0 then [.err] else [.ret total, .err], fun now f hline => ?_⟩
      simp only [SecureProxy.logRequestEx, LogCall.line, sendAll, hline, hacc, hfd, textOf_append, htaken.textOf]
      simp [hrc]

/-- A request as it is logged. -/
def sampleFields : LogFields := ⟨1, some (bytes "a.test"), some (bytes "allowed"), 200, 512, 3, none⟩

/-- The second thread has got three bytes of its line into the file. -/
theorem reach_midway : ∃ T : LogRun, Threads.Reach sections {} T ∧
    T.shared.guarded.calls = [.write 0 ((logLine none sampleFields).take 3)] := by
  have h := @Threads.Reach.init _ _ _ _ _ _ _ _ sections {}
  have h := h.step (.start (x := [.init (some (bytes "log"))]) rfl)
  have h := h.step (.free (i := 0) rfl rfl .opened)
  have h := h.step (.lock (i := 0) rfl rfl)
  have h := h.step (.body ⟨_, .first rfl, rfl⟩)
  have h := h.step (.body ⟨_, .store, rfl⟩)
  have h := h.step (.unlock (i := 0) rfl .install)
  have h := h.step (.start (x := [.request none sampleFields]) rfl)
  have h := h.step (.lock (i := 1) rfl rfl)
  have h := h.step (.body ⟨_, .isEnabled, rfl⟩)
  have h := h.step (.unlock (i := 1) rfl .isEnabled)
  have h := h.step (.lock (i := 1) rfl rfl)
  have h := h.step (.body ⟨_, .enabled rfl, rfl⟩)
  have h := h.step (.body ⟨_, .took (n := 3) (by decide +kernel) (by decide) (by decide +kernel), rfl⟩)
  exact ⟨_, h, rfl⟩

end LogThreads

end SecureProxy
