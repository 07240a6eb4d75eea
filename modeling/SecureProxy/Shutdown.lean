/-
The end of the proxy: what the main thread does once `g_stop` is set, whatever
the workers do between its steps.

`Moves` says it step by step. From it follow how many steps are left to the
main thread, that it is never kept from taking the next, that no more than the
connection it may have in hand is still served, and what it waited for before
it took down what the workers share.
-/
import SecureProxy.Server

namespace SecureProxy

open Bytes Progs

/-- A step of the main thread after the signal, with the count of active
clients it is taken at. -/
inductive Moves (active : Int) : MainPc → MainPc → Prop
  | stopped : Moves active .testing (.waiting 0)
  | acceptFails : Moves active .accepting .testing
  | accept : Moves active .accepting .admitting
  | refuse : Moves active .admitting .refusing
  | counted : Moves active .admitting .counted
  | refused : Moves active .refusing .testing
  | startFails : Moves active .counted .undoing
  | start : Moves active .counted .testing
  | undone : Moves active .undoing .testing
  | nap {w : Nat} : w < shutdownWaitMs → active ≠ 0 → Moves active (.waiting w) (.napping w)
  | ended {w : Nat} : shutdownWaitMs ≤ w ∨ active = 0 → Moves active (.waiting w) (.tearingDown .reputationShutdown)
  | wake {w : Nat} : Moves active (.napping w) (.waiting (w + 50))
  | reputation : Moves active (.tearingDown .reputationShutdown) (.tearingDown .cacheDestroy)
  | cache : Moves active (.tearingDown .cacheDestroy) (.tearingDown .policyFree)
  | policy : Moves active (.tearingDown .policyFree) (.tearingDown .loggerClose)
  | logger : Moves active (.tearingDown .loggerClose) .exited

/-- A connection may still become a worker. -/
def MainPc.inHand : MainPc → Nat
  | .accepting | .admitting | .counted => 1
  | .testing | .refusing | .undoing | .waiting _ | .napping _ | .tearingDown _ | .exited => 0

theorem mainStep_moves {s : ServerState} (hstop : s.stop = true) (m : MainMove) :
    (mainStep s m).stop = true ∧
      ((mainStep s m).main = s.main ∨ Moves s.activeClients s.main (mainStep s m).main) := by
  cases m with
  | signal => exact ⟨rfl, .inl rfl⟩
  | fail =>
    unfold mainStep
    cases hmain : s.main with
    | accepting => exact ⟨hstop, .inr .acceptFails⟩
    | counted => exact ⟨hstop, .inr .startFails⟩
    | _ => exact ⟨hstop, .inl hmain⟩
  | go =>
    unfold mainStep
    cases hmain : s.main with
    | testing =>
      refine ⟨hstop, .inr ?_⟩
      rw [hstop, if_pos rfl]
      exact .stopped
    | accepting => exact ⟨hstop, .inr .accept⟩
    | admitting =>
      dsimp only
      split
      · exact ⟨hstop, .inr .refuse⟩
      · exact ⟨hstop, .inr .counted⟩
    | refusing => exact ⟨hstop, .inr .refused⟩
    | counted => exact ⟨hstop, .inl hmain⟩
    | undoing => exact ⟨hstop, .inr .undone⟩
    | waiting w =>
      refine ⟨hstop, .inr ?_⟩
      dsimp only [waitStep]
      split
      · rename_i hwait
        exact .nap hwait.1 hwait.2
      · rename_i hover
        exact .ended (by omega)
    | napping w => exact ⟨hstop, .inr .wake⟩
    | tearingDown next =>
      cases next with
      | reputationShutdown => exact ⟨hstop, .inr .reputation⟩
      | cacheDestroy => exact ⟨hstop, .inr .cache⟩
      | policyFree => exact ⟨hstop, .inr .policy⟩
      | loggerClose => exact ⟨hstop, .inr .logger⟩
    | exited => exact ⟨hstop, .inl hmain⟩

/-- What a step of the server does to its main thread, the signal given. -/
structure Going (P P' : ServerPool) : Prop where
  stop : P'.shared.stop = true
  main : P'.shared.main = P.shared.main ∨ Moves P.shared.activeClients P.shared.main P'.shared.main
  workers : P'.workers.length + P'.shared.main.inHand ≤ P.workers.length + P.shared.main.inHand

theorem Moves.inHand {active : Int} {pc pc' : MainPc} (h : Moves active pc pc') : pc'.inHand ≤ pc.inHand := by
  cases h <;> simp [MainPc.inHand]

theorem server_going {g : Globals} {P P' : ServerPool} (hstop : P.shared.stop = true) (hs : Pool.Step (server g) P P') :
    Going P P' := by
  cases hs with
  | @start s s' ws log x hstart =>
    obtain ⟨hmain, rfl⟩ := hstart
    have hmain : s.main = .counted := hmain
    exact ⟨hstop, .inr (by rw [hmain]; exact .start), by simp [hmain, MainPc.inHand]⟩
  | @say s ws log i x e k _ => exact ⟨hstop, .inl rfl, by simp⟩
  | @ask s s' ws log i x q k a n _ hserve =>
    obtain ⟨-, -, hglobals⟩ := hserve
    have hmain : s'.main = s.main := (serveGlobals_frame hglobals).1
    refine ⟨?_, .inl hmain, by simp [hmain]⟩
    show s'.stop = true
    cases serveGlobals_served hglobals <;> exact hstop
  | @outside s s' ws log hout =>
    obtain ⟨m, rfl⟩ := hout
    obtain ⟨hkept, hmain⟩ := mainStep_moves hstop m
    refine ⟨hkept, hmain, ?_⟩
    rcases hmain with hmain | hmoves
    · simp [hmain]
    · exact Nat.add_le_add_left hmoves.inHand _

/-! ## How much is left -/

/-- The naps that are left after `w` milliseconds. -/
def napsLeft (w : Nat) : Nat := (shutdownWaitMs - w + 49) / 50

/-- The steps the main thread has before it at most. -/
def MainPc.left : MainPc → Nat
  | .exited => 0
  | .tearingDown .loggerClose => 1
  | .tearingDown .policyFree => 2
  | .tearingDown .cacheDestroy => 3
  | .tearingDown .reputationShutdown => 4
  | .waiting w => 5 + 2 * napsLeft w
  | .napping w => 6 + 2 * napsLeft (w + 50)
  | .testing => 126
  | .refusing | .undoing => 127
  | .counted => 128
  | .admitting => 129
  | .accepting => 130

theorem MainPc.left_le (pc : MainPc) : pc.left ≤ 130 := by
  cases pc with
  | waiting w =>
    simp only [MainPc.left, napsLeft, shutdownWaitMs]
    omega
  | napping w =>
    simp only [MainPc.left, napsLeft, shutdownWaitMs]
    omega
  | tearingDown next => cases next <;> decide
  | _ => decide

theorem Moves.left {active : Int} {pc pc' : MainPc} (h : Moves active pc pc') : pc'.left < pc.left := by
  cases h with
  | @nap w hw _ =>
    simp only [MainPc.left, napsLeft, shutdownWaitMs] at hw ⊢
    omega
  | ended _ =>
    simp only [MainPc.left]
    omega
  | wake =>
    simp only [MainPc.left]
    omega
  | _ => decide

/-- The main thread has moved. -/
def mainMoved (P P' : ServerPool) : Bool := decide (P'.shared.main ≠ P.shared.main)

theorem Going.left {P P' : ServerPool} (h : Going P P') :
    P'.shared.main.left + (mainMoved P P').toNat ≤ P.shared.main.left := by
  rcases h.main with hsame | hmoves
  · simp [mainMoved, hsame]
  · have hlt := hmoves.left
    have := Bool.toNat_le (mainMoved P P')
    omega

/-- Whatever the workers do, the main thread can go on. -/
theorem server_goes_on (g : Globals) {P : ServerPool} (hmain : P.shared.main ≠ .exited) :
    ∃ P', Pool.Step (server g) P P' ∧ mainMoved P P' = true := by
  have hgo : ∀ m, (mainStep P.shared m).main ≠ P.shared.main → ∃ P', Pool.Step (server g) P P' ∧ mainMoved P P' = true :=
    fun m hm => ⟨⟨mainStep P.shared m, P.workers, P.log⟩, .outside ⟨m, rfl⟩, decide_eq_true hm⟩
  cases hpc : P.shared.main with
  | testing => exact hgo .go (by simp only [mainStep, hpc]; split <;> simp)
  | accepting => exact hgo .go (by simp [mainStep, hpc])
  | admitting => exact hgo .go (by simp only [mainStep, hpc]; split <;> simp)
  | refusing => exact hgo .go (by simp [mainStep, hpc])
  | counted => exact hgo .fail (by simp [mainStep, hpc])
  | undoing => exact hgo .go (by simp [mainStep, hpc])
  | waiting w => exact hgo .go (by simp only [mainStep, hpc, waitStep]; split <;> simp)
  | napping w => exact hgo .go (by simp [mainStep, hpc])
  | tearingDown next => exact hgo .go (by cases next <;> simp [mainStep, hpc, teardownStep])
  | exited => exact absurd hpc hmain

/-! ## What the teardown waits for -/

/-- In the accept loop. -/
def MainPc.serving : MainPc → Bool
  | .testing | .accepting | .admitting | .refusing | .counted | .undoing => true
  | .waiting _ | .napping _ | .tearingDown _ | .exited => false

/-- What the workers share is being taken down, or is gone. -/
def MainPc.down : MainPc → Bool
  | .tearingDown _ | .exited => true
  | .testing | .accepting | .admitting | .refusing | .counted | .undoing | .waiting _ | .napping _ => false

abbrev ServerPath (g : Globals) : ServerPool → Nat → ServerPool → Prop := Pool.Path (server g) mainMoved

/-- Between `P` and `P'` there was a moment without a client. -/
def Emptied (g : Globals) (P P' : ServerPool) : Prop :=
  ∃ Q m k, ServerPath g P m Q ∧ ServerPath g Q k P' ∧ Q.shared.activeClients = 0

theorem Emptied.step {g : Globals} {P P' P'' : ServerPool} (h : Emptied g P P') (hs : Pool.Step (server g) P' P'') :
    Emptied g P P'' := by
  obtain ⟨Q, m, k, hm, hk, hzero⟩ := h
  exact ⟨Q, m, _, hm, hk.step hs, hzero⟩

/-- How far the wait has come after `n` steps of the main thread. -/
def Waited (emptied : Prop) (n : Nat) : MainPc → Prop
  | .waiting w => ∃ naps, w = 50 * naps ∧ 2 * naps + 1 ≤ n
  | .napping w => ∃ naps, w = 50 * naps ∧ 2 * naps + 2 ≤ n
  | .tearingDown _ | .exited => 122 ≤ n ∨ emptied
  | .testing | .accepting | .admitting | .refusing | .counted | .undoing => True

section

variable {emptied emptied' : Prop} {n n' : Nat} {pc pc' : MainPc}

theorem Waited.mono (h : Waited emptied n pc) (hn : n ≤ n') (hemptied : emptied → emptied') : Waited emptied' n' pc := by
  cases pc with
  | waiting w =>
    obtain ⟨naps, hw, hle⟩ := h
    exact ⟨naps, hw, hle.trans hn⟩
  | napping w =>
    obtain ⟨naps, hw, hle⟩ := h
    exact ⟨naps, hw, hle.trans hn⟩
  | tearingDown next => exact h.imp hn.trans' hemptied
  | exited => exact h.imp hn.trans' hemptied
  | _ => trivial

theorem Moves.waited {active : Int} (hmoves : Moves active pc pc') (h : Waited emptied n pc)
    (hzero : active = 0 → emptied) : Waited emptied (n + 1) pc' := by
  cases hmoves with
  | stopped => exact ⟨0, rfl, by omega⟩
  | nap _ _ =>
    obtain ⟨naps, hw, hle⟩ := h
    exact ⟨naps, hw, by omega⟩
  | @ended w hover =>
    obtain ⟨naps, hw, hle⟩ := h
    rcases hover with hlong | hnone
    · refine .inl ?_
      rw [hw, shutdownWaitMs] at hlong
      omega
    · exact .inr (hzero hnone)
  | wake =>
    obtain ⟨naps, hw, hle⟩ := h
    exact ⟨naps + 1, by omega, by omega⟩
  | reputation => exact h.imp_left fun hn => by omega
  | cache => exact h.imp_left fun hn => by omega
  | policy => exact h.imp_left fun hn => by omega
  | logger => exact h.imp_left fun hn => by omega
  | _ => trivial

end

theorem waited_start (emptied : Prop) {pc : MainPc} (h : pc.serving = true) : Waited emptied 0 pc := by
  cases pc <;> trivial

theorem Waited.tornDown {emptied : Prop} {n : Nat} {pc : MainPc} (h : Waited emptied n pc) (hdown : pc.down = true) :
    122 ≤ n ∨ emptied := by
  cases pc <;> first | exact h | cases hdown

section

variable {g : Globals} {P P' : ServerPool} {n : Nat}

theorem ServerPath.waited (h : ServerPath g P n P') (hstop : P.shared.stop = true) (hserving : P.shared.main.serving = true) :
    P'.shared.stop = true ∧ Waited (Emptied g P P') n P'.shared.main := by
  induction h with
  | here => exact ⟨hstop, waited_start _ hserving⟩
  | @step n P' P'' hpath hs ih =>
    obtain ⟨hstop', hwaited⟩ := ih
    have hgoing := server_going hstop' hs
    refine ⟨hgoing.stop, ?_⟩
    rcases hgoing.main with hsame | hmoves
    · rw [hsame]
      exact hwaited.mono (Nat.le_add_right ..) (Emptied.step · hs)
    · have hmoved : mainMoved P' P'' = true := decide_eq_true fun heq => by
        have := hmoves.left
        rw [heq] at this
        omega
      rw [hmoved]
      refine hmoves.waited (hwaited.mono le_rfl (Emptied.step · hs)) fun hzero => ?_
      exact ⟨P', n, _, hpath, Pool.Path.here.step hs, hzero⟩

/-- What holds after `n` steps of the main thread from `P` on. -/
structure Stopping (g : Globals) (P : ServerPool) (n : Nat) (P' : ServerPool) : Prop where
  /-- No more than this many steps were taken and can follow. -/
  bounded : n + P'.shared.main.left ≤ P.shared.main.left
  /-- At most the connection in hand got a worker. -/
  workers : P'.workers.length ≤ P.workers.length + P.shared.main.inHand
  /-- All clients had left, or every nap was taken. -/
  patient : P.shared.main.serving = true → P'.shared.main.down = true → 122 ≤ n ∨ Emptied g P P'
  goesOn : P'.shared.main ≠ .exited → ∃ P'', Pool.Step (server g) P' P'' ∧ mainMoved P' P'' = true

theorem serverPath_main (g : Globals) (P : ServerPool) (moves : List MainMove) :
    ∃ n, ServerPath g P n ⟨moves.foldl mainStep P.shared, P.workers, P.log⟩ := by
  induction moves using List.reverseRecOn with
  | nil => exact ⟨0, .here⟩
  | append_singleton moves m ih =>
    obtain ⟨n, hpath⟩ := ih
    rw [List.foldl_append]
    exact ⟨_, hpath.step (.outside ⟨m, rfl⟩)⟩

end

end SecureProxy
