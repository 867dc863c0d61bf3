import Peter.Deaths
import Peter.PidFile
import Peter.Termination

/-!
# The main thread, call by call

`main` starts the scheduler threads one after the other, and then goes round its loop: it polls
them, writes the PID file, turns all of them off after a signal, and ends when all are ready.  The
threads it has started, the socket and the signal handler run between any two of its calls.
-/

namespace Peter

/-! ## The main thread -/

/-- Where `main` is. -/
inductive MainPc
  | start (si : ℕ)
  /-- In `start`, behind `pthread_create`. -/
  | created (si : ℕ)
  | count (si : ℕ)
  /-- `while ( s->wu_count() != prev_wuc )`. -/
  | compare (si prevWuc : ℕ)
  | poll (si : ℕ)
  | openFile
  | info (si : ℕ) (res : XMLNode)
  | ctrlC
  | setMode (si : ℕ)
  | clear
  | notReady (si : ℕ)
  | remove
  | returned

/-- The PID file, which is empty between `open` and the write. -/
inductive PidFile
  | absent
  | empty
  | tree (doc : XMLNode)

namespace MainPc

/-- The thread of scheduler `i` has been created. -/
def threadRuns : MainPc → ℕ → Bool
  | .start si, i => i < si
  | .created si, i => i ≤ si
  | .count si, i => i ≤ si
  | .compare si _, i => i ≤ si
  | _, _ => true

/-- `STATUS_RUNNING` has been assigned to scheduler `i`. -/
def assigned : MainPc → ℕ → Bool
  | .start si, i => i < si
  | .created si, i => i < si
  | .count si, i => i ≤ si
  | .compare si _, i => i ≤ si
  | _, _ => true

/-- All schedulers are started. -/
def looping : MainPc → Bool
  | .start _ => false
  | .created _ => false
  | .count _ => false
  | .compare _ _ => false
  | _ => true

end MainPc

/-- What the system answers to one call of `main`. -/
structure LaunchEnv where
  utc : ℤ := 0
  /-- `pthread_create(…) == 0`. -/
  createOk : Bool := true
  canOpen : Bool := true

/-- PETeR with the main thread. -/
structure Daemon where
  process : Process
  pc : MainPc := .start 0
  ctrlC : Bool := false
  pidfile : PidFile := .absent

inductive DaemonLabel
  /-- A call of `main`. -/
  | main (e : LaunchEnv)
  /-- `ctrl_c_handler`. -/
  | signal
  /-- A step of the schedulers, or something that happens to them. -/
  | other (l : Label)

/-- The label is a call of `main`. -/
def DaemonLabel.isMain : DaemonLabel → Bool
  | .main _ => true
  | _ => false

/-- The label is a step of thread `i`. -/
def DaemonLabel.own (i : ℕ) : DaemonLabel → Bool
  | .other l => l.own i
  | _ => false

namespace Process

/-- The assignments of `Scheduler::start` before and after `pthread_create`. -/
def setOn (σ : Process) (i : ℕ) : Process :=
  let t := σ.thread i
  σ.put i { t with s := { t.s with mode := .on } } σ.os

def setRunning (σ : Process) (i : ℕ) : Process :=
  let t := σ.thread i
  σ.put i { t with s := { t.s with status := .running } } σ.os

def wuCount (σ : Process) (i : ℕ) : ℕ := (σ.thread i).s.schedule.units.length

end Process

namespace Daemon

/-- One call of `main`. -/
def main (e : LaunchEnv) (σ : Daemon) : Except Halt Daemon :=
  let π := σ.process
  match σ.pc with
  | .start si =>
    if si < π.count then
      if e.createOk then .ok { σ with process := π.setOn si, pc := .created si }
      else .error (.exited 3)
    else .ok { σ with pc := .poll 0 }
  | .created si => .ok { σ with process := π.setRunning si, pc := .count si }
  | .count si => .ok { σ with pc := .compare si (π.wuCount si) }
  | .compare si prevWuc =>
    .ok { σ with pc := if π.wuCount si ≠ prevWuc then .count si else .start (si + 1) }
  | .poll si =>
    if si < π.count then
      let (n, π) := π.getChanged si
      .ok { σ with process := π, pc := if n > 0 then .openFile else .poll (si + 1) }
    else .ok { σ with pc := .ctrlC }
  | .openFile =>
    if e.canOpen then .ok { σ with pidfile := .empty, pc := .info 0 { name := str "peter" } }
    else .ok { σ with pc := .ctrlC }
  | .info si res =>
    if si < π.count then
      let r := Session.command { utc := e.utc } (str "info") si (str "info") { process := π }
      .ok { σ with pc := .info (si + 1) (res.addChild r.1) }
    else .ok { σ with pidfile := .tree res, pc := .ctrlC }
  | .ctrlC => .ok { σ with pc := if σ.ctrlC then .setMode 0 else .notReady 0 }
  | .setMode si =>
    if si < π.count then .ok { σ with process := π.setOff si, pc := .setMode (si + 1) }
    else .ok { σ with pc := .clear }
  | .clear => .ok { σ with ctrlC := false, pc := .notReady 0 }
  | .notReady si =>
    if si < π.count then
      .ok { σ with pc := if (π.thread si).s.status = .ready then .notReady (si + 1) else .poll 0 }
    else .ok { σ with pc := .remove }
  | .remove => .ok { σ with pidfile := .absent, pc := .returned }
  | .returned => .ok σ

/-- A step of the schedulers.  Only `main` turns a scheduler off, and only a thread that has been
created runs. -/
def other (l : Label) (σ : Daemon) : Except Halt Daemon :=
  let go : Except Halt Daemon := match machine.step l σ.process with
    | .ok process => .ok { σ with process }
    | .error h => .error h
  match l with
  | .interrupt _ => .ok σ
  | .thread i _ => if σ.pc.threadRuns i then go else .ok σ
  | _ => go

/-- When `main` has returned, the process is gone. -/
def step (l : DaemonLabel) (σ : Daemon) : Except Halt Daemon :=
  match σ.pc, l with
  | .returned, _ => .ok σ
  | _, .main e => σ.main e
  | _, .signal => .ok { σ with ctrlC := true }
  | _, .other l => σ.other l

end Daemon

/-- PETeR with its main thread, as a transition system. -/
def daemon : Transition.System Daemon DaemonLabel Halt := ⟨Daemon.step⟩

/-! ## What a call of `main` does -/

namespace Daemon

variable {σ σ' : Daemon} {e : LaunchEnv} {l : DaemonLabel} {i : ℕ} {pc : MainPc}

/-- Where `main` goes on. -/
inductive Goes (σ : Daemon) : MainPc → Prop
  | create {si : ℕ} (hpc : σ.pc = .start si) (hsi : si < σ.process.count) : Goes σ (.created si)
  | loop {si : ℕ} (hpc : σ.pc = .start si) (hsi : ¬si < σ.process.count) : Goes σ (.poll 0)
  | assign {si : ℕ} (hpc : σ.pc = .created si) : Goes σ (.count si)
  | count {si : ℕ} (hpc : σ.pc = .count si) : Goes σ (.compare si (σ.process.wuCount si))
  | recount {si prev : ℕ} (hpc : σ.pc = .compare si prev) : Goes σ (.count si)
  | next {si prev : ℕ} (hpc : σ.pc = .compare si prev) : Goes σ (.start (si + 1))
  | changed {si : ℕ} (hpc : σ.pc = .poll si) : Goes σ .openFile
  | unchanged {si : ℕ} (hpc : σ.pc = .poll si) (hsi : si < σ.process.count) :
      Goes σ (.poll (si + 1))
  | polled {si : ℕ} (hpc : σ.pc = .poll si) : Goes σ .ctrlC
  | opened {res : XMLNode} (hpc : σ.pc = .openFile) : Goes σ (.info 0 res)
  | unopened (hpc : σ.pc = .openFile) : Goes σ .ctrlC
  | info {si : ℕ} {res res' : XMLNode} (hpc : σ.pc = .info si res) (hsi : si < σ.process.count) :
      Goes σ (.info (si + 1) res')
  | written {si : ℕ} {res : XMLNode} (hpc : σ.pc = .info si res) : Goes σ .ctrlC
  | signalled (hpc : σ.pc = .ctrlC) (hc : σ.ctrlC) : Goes σ (.setMode 0)
  | quiet (hpc : σ.pc = .ctrlC) (hc : σ.ctrlC = false) : Goes σ (.notReady 0)
  | off {si : ℕ} (hpc : σ.pc = .setMode si) (hsi : si < σ.process.count) :
      Goes σ (.setMode (si + 1))
  | allOff {si : ℕ} (hpc : σ.pc = .setMode si) (hsi : ¬si < σ.process.count) : Goes σ .clear
  | clear (hpc : σ.pc = .clear) : Goes σ (.notReady 0)
  | ready {si : ℕ} (hpc : σ.pc = .notReady si) (hsi : si < σ.process.count)
      (hready : (σ.process.thread si).s.status = .ready) : Goes σ (.notReady (si + 1))
  | again {si : ℕ} (hpc : σ.pc = .notReady si) (hsi : si < σ.process.count)
      (hready : (σ.process.thread si).s.status ≠ .ready) : Goes σ (.poll 0)
  | allReady {si : ℕ} (hpc : σ.pc = .notReady si) (hsi : ¬si < σ.process.count) : Goes σ .remove
  | removed (hpc : σ.pc = .remove) : Goes σ .returned
  | gone (hpc : σ.pc = .returned) : Goes σ .returned

/-- What a call of `main` does to the schedulers. -/
inductive Tends (σ : Daemon) : Process → Prop
  | nothing (hpc : ∀ si, σ.pc ≠ .created si) (hoff : ∀ si < σ.process.count, σ.pc ≠ .setMode si) :
      Tends σ σ.process
  | on {si : ℕ} (hpc : σ.pc = .start si) : Tends σ (σ.process.setOn si)
  | running {si : ℕ} (hpc : σ.pc = .created si) : Tends σ (σ.process.setRunning si)
  | changed {si : ℕ} (hpc : σ.pc = .poll si) : Tends σ (σ.process.getChanged si).2
  | off {si : ℕ} (hpc : σ.pc = .setMode si) : Tends σ (σ.process.setOff si)

/-- What a call of `main` does. -/
structure Calls (σ σ' : Daemon) : Prop where
  tends : σ.Tends σ'.process
  goes : σ.Goes σ'.pc
  ctrlC : σ'.ctrlC = σ.ctrlC ∨ σ.pc = .clear
  pidfile : σ.pc = .remove → σ'.pidfile = .absent

/-- A call that only reads the schedulers. -/
theorem Calls.reads {ctrlC : Bool} {pidfile : PidFile} (hg : σ.Goes pc)
    (hpc : ∀ si, σ.pc ≠ .created si) (hoff : ∀ si < σ.process.count, σ.pc ≠ .setMode si)
    (hc : ctrlC = σ.ctrlC ∨ σ.pc = .clear) (hfile : σ.pc = .remove → pidfile = .absent) :
    σ.Calls ⟨σ.process, pc, ctrlC, pidfile⟩ :=
  ⟨.nothing hpc hoff, hg, hc, hfile⟩

theorem calls_of_main (h : σ.main e = .ok σ') : σ.Calls σ' := by
  unfold main at h
  cases hpc : σ.pc with
  | start si =>
    simp only [hpc] at h
    split_ifs at h with hsi hok
    · cases h
      exact ⟨.on hpc, .create hpc hsi, .inl rfl, by simp [hpc]⟩
    · cases h
      exact .reads (.loop hpc hsi) (by simp [hpc]) (by simp [hpc]) (.inl rfl) (by simp [hpc])
  | created si =>
    simp only [hpc] at h
    cases h
    exact ⟨.running hpc, .assign hpc, .inl rfl, by simp [hpc]⟩
  | count si =>
    simp only [hpc] at h
    cases h
    exact .reads (.count hpc) (by simp [hpc]) (by simp [hpc]) (.inl rfl) (by simp [hpc])
  | compare si prev =>
    simp only [hpc] at h
    cases h
    refine .reads ?_ (by simp [hpc]) (by simp [hpc]) (.inl rfl) (by simp [hpc])
    split_ifs
    · exact .recount hpc
    · exact .next hpc
  | poll si =>
    simp only [hpc] at h
    split_ifs at h with hsi hn
    · cases h
      exact ⟨.changed hpc, .changed hpc, .inl rfl, by simp [hpc]⟩
    · cases h
      exact ⟨.changed hpc, .unchanged hpc hsi, .inl rfl, by simp [hpc]⟩
    · cases h
      exact .reads (.polled hpc) (by simp [hpc]) (by simp [hpc]) (.inl rfl) (by simp [hpc])
  | openFile =>
    simp only [hpc] at h
    split_ifs at h
    · cases h
      exact .reads (.opened hpc) (by simp [hpc]) (by simp [hpc]) (.inl rfl) (by simp [hpc])
    · cases h
      exact .reads (.unopened hpc) (by simp [hpc]) (by simp [hpc]) (.inl rfl) (by simp [hpc])
  | info si res =>
    simp only [hpc] at h
    split_ifs at h with hsi
    · cases h
      exact .reads (.info hpc hsi) (by simp [hpc]) (by simp [hpc]) (.inl rfl) (by simp [hpc])
    · cases h
      exact .reads (.written hpc) (by simp [hpc]) (by simp [hpc]) (.inl rfl) (by simp [hpc])
  | ctrlC =>
    simp only [hpc] at h
    cases h
    refine .reads ?_ (by simp [hpc]) (by simp [hpc]) (.inl rfl) (by simp [hpc])
    split_ifs with hc
    · exact .signalled hpc hc
    · exact .quiet hpc (eq_false_of_ne_true hc)
  | setMode si =>
    simp only [hpc] at h
    split_ifs at h with hsi
    · cases h
      exact ⟨.off hpc, .off hpc hsi, .inl rfl, by simp [hpc]⟩
    · cases h
      refine .reads (.allOff hpc hsi) (by simp [hpc]) (fun sj hsj he => ?_) (.inl rfl) (by simp [hpc])
      rw [hpc] at he
      cases he
      exact hsi hsj
  | clear =>
    simp only [hpc] at h
    cases h
    exact .reads (.clear hpc) (by simp [hpc]) (by simp [hpc]) (.inr hpc) (by simp [hpc])
  | notReady si =>
    simp only [hpc] at h
    split_ifs at h with hsi hready
    · cases h
      exact .reads (.ready hpc hsi hready) (by simp [hpc]) (by simp [hpc]) (.inl rfl) (by simp [hpc])
    · cases h
      exact .reads (.again hpc hsi hready) (by simp [hpc]) (by simp [hpc]) (.inl rfl) (by simp [hpc])
    · cases h
      exact .reads (.allReady hpc hsi) (by simp [hpc]) (by simp [hpc]) (.inl rfl) (by simp [hpc])
  | remove =>
    simp only [hpc] at h
    cases h
    exact .reads (.removed hpc) (by simp [hpc]) (by simp [hpc]) (.inl rfl) (fun _ => rfl)
  | returned =>
    simp only [hpc] at h
    cases h
    refine ⟨.nothing (by simp [hpc]) (by simp [hpc]), ?_, .inl rfl, by simp [hpc]⟩
    rw [hpc]
    exact .gone hpc

/-- A step of PETeR. -/
inductive Moves (σ : Daemon) : DaemonLabel → Daemon → Prop
  | rest {l : DaemonLabel} (hrest : σ.pc = .returned ∨ ∃ l', l = .other l' ∧
      ∀ i env, l' = .thread i env → σ.pc.threadRuns i = false) : Moves σ l σ
  | main {e : LaunchEnv} {σ' : Daemon} (hpc : σ.pc ≠ .returned) (h : σ.Calls σ') :
      Moves σ (.main e) σ'
  | signal (hpc : σ.pc ≠ .returned) : Moves σ .signal { σ with ctrlC := true }
  | other {l : Label} {π : Process} (hpc : σ.pc ≠ .returned)
      (h : machine.step l σ.process = .ok π) (hrun : ∀ i env, l = .thread i env → σ.pc.threadRuns i)
      (hon : ∀ i, l ≠ .interrupt i) : Moves σ (.other l) { σ with process := π }

theorem moves_of_other {l : Label} (hpc : σ.pc ≠ .returned) (h : σ.other l = .ok σ') :
    σ.Moves (.other l) σ' := by
  have hgo : ∀ {r : Except Halt Process}, r = machine.step l σ.process →
      (match r with
        | .ok process => Except.ok { σ with process }
        | .error h => .error h) = .ok σ' →
      (∀ i env, l = .thread i env → σ.pc.threadRuns i) → (∀ i, l ≠ .interrupt i) →
      σ.Moves (.other l) σ' := by
    intro r hr h hrun hon
    cases r with
    | error x => cases h
    | ok π =>
      cases h
      exact .other hpc hr.symm hrun hon
  unfold other at h
  cases l with
  | interrupt i =>
    cases h
    exact .rest (.inr ⟨_, rfl, nofun⟩)
  | thread i env =>
    dsimp only at h
    split_ifs at h with hrun
    · refine hgo rfl h (fun j env' he => ?_) nofun
      cases he
      exact hrun
    · cases h
      refine .rest (.inr ⟨_, rfl, fun j env' he => ?_⟩)
      cases he
      exact eq_false_of_ne_true hrun
  | dies => exact hgo rfl h nofun nofun
  | leaves => exact hgo rfl h nofun nofun
  | quit => exact hgo rfl h nofun nofun
  | start => exact hgo rfl h nofun nofun
  | stop => exact hgo rfl h nofun nofun

theorem moves_of_step (h : daemon.step l σ = .ok σ') : σ.Moves l σ' := by
  have hstep : Daemon.step l σ = .ok σ' := h
  by_cases hpc : σ.pc = .returned
  · simp only [Daemon.step, hpc] at hstep
    cases hstep
    exact .rest (.inl hpc)
  · have hgo : (match l with
        | .main e => σ.main e
        | .signal => .ok { σ with ctrlC := true }
        | .other l => σ.other l) = .ok σ' := by
      unfold Daemon.step at hstep
      split at hstep
      · exact absurd ‹_› hpc
      · exact hstep
      · exact hstep
      · exact hstep
    cases l with
    | main e => exact .main hpc (calls_of_main hgo)
    | signal =>
      cases hgo
      exact .signal hpc
    | other l => exact moves_of_other hpc hgo

/-! ## Scheduler by scheduler -/

/-- What a call of `main` leaves of thread `i`. -/
structure Tended (σ : Daemon) (π : Process) (i : ℕ) : Prop where
  pc : (π.thread i).pc = (σ.process.thread i).pc
  schedule : (π.thread i).s.schedule = (σ.process.thread i).s.schedule
  mode : (π.thread i).s.mode = (σ.process.thread i).s.mode ∨ σ.pc = .start i ∨
    σ.pc = .setMode i ∧ (π.thread i).s.mode = .off
  status : (π.thread i).s.status = (σ.process.thread i).s.status ∨
    σ.pc = .created i ∧ (π.thread i).s.status = .running

theorem Tends.unchanged {π : Process} (h : σ.Tends π) : σ.process.Unchanged π := by
  cases h with
  | nothing => exact .refl _
  | @on si =>
    obtain ⟨hframe, hbooks⟩ := σ.process.put_quiet si
      (World.quiet_setMode ⟨(σ.process.thread si).s, σ.process.os⟩ .on)
    exact ⟨hframe, hbooks⟩
  | @running si =>
    obtain ⟨hframe, hbooks⟩ := σ.process.put_quiet si
      (World.quiet_setStatus ⟨(σ.process.thread si).s, σ.process.os⟩ .running)
    exact ⟨hframe, hbooks⟩
  | @changed si => exact σ.process.getChanged_unchanged si
  | @off si => exact σ.process.setOff_unchanged si

theorem tended_put {si : ℕ} {t : Thread} {os : OS} (ht : t.pc = (σ.process.thread si).pc)
    (hsch : t.s.schedule = (σ.process.thread si).s.schedule)
    (hmode : t.s.mode = (σ.process.thread si).s.mode ∨ σ.pc = .start si ∨
      σ.pc = .setMode si ∧ t.s.mode = .off)
    (hstatus : t.s.status = (σ.process.thread si).s.status ∨
      σ.pc = .created si ∧ t.s.status = .running) (i : ℕ) :
    σ.Tended (σ.process.put si t os) i := by
  by_cases hi : i = si
  · subst hi
    have hself : (σ.process.put i t os).thread i = t := Function.update_self ..
    constructor
    · rwa [hself]
    · rwa [hself]
    · rwa [hself]
    · rwa [hself]
  · have hsame : (σ.process.put si t os).thread i = σ.process.thread i :=
      Function.update_of_ne hi ..
    constructor
    · rw [hsame]
    · rw [hsame]
    · rw [hsame]
      exact .inl rfl
    · rw [hsame]
      exact .inl rfl

theorem Tends.tended {π : Process} (h : σ.Tends π) (i : ℕ) : σ.Tended π i := by
  cases h with
  | nothing => exact ⟨rfl, rfl, .inl rfl, .inl rfl⟩
  | on hpc =>
    refine tended_put ?_ ?_ (.inr (.inl hpc)) ?_ i
    exacts [rfl, rfl, .inl rfl]
  | running hpc =>
    refine tended_put ?_ ?_ ?_ (.inr ⟨hpc, ?_⟩) i
    exacts [rfl, rfl, .inl rfl, rfl]
  | changed =>
    refine tended_put ?_ ?_ ?_ ?_ i
    exacts [rfl, rfl, .inl rfl, .inl rfl]
  | off hpc =>
    refine tended_put ?_ ?_ (.inr (.inr ⟨hpc, ?_⟩)) ?_ i
    exacts [rfl, rfl, rfl, .inl rfl]

/-- The assignments that `main` makes to the scheduler it is at. -/
theorem Tends.assigns {π : Process} (h : σ.Tends π) (hpc : σ.pc = .created i) :
    (π.thread i).s.status = .running := by
  have hget : ∀ {t : Thread} {os : OS}, (σ.process.put i t os).thread i = t :=
    fun {t os} => Function.update_self ..
  cases h with
  | nothing hno => exact absurd hpc (hno i)
  | on hpc' => simp [hpc] at hpc'
  | running hpc' =>
    rw [hpc] at hpc'
    cases hpc'
    simp [Process.setRunning, hget]
  | changed hpc' => simp [hpc] at hpc'
  | off hpc' => simp [hpc] at hpc'

theorem Tends.turnsOff {π : Process} (h : σ.Tends π) (hpc : σ.pc = .setMode i)
    (hi : i < σ.process.count) : (π.thread i).s.mode = .off := by
  have hget : ∀ {t : Thread} {os : OS}, (σ.process.put i t os).thread i = t :=
    fun {t os} => Function.update_self ..
  cases h with
  | nothing _ hno => exact absurd hpc (hno i hi)
  | on hpc' => simp [hpc] at hpc'
  | running hpc' => simp [hpc] at hpc'
  | changed hpc' => simp [hpc] at hpc'
  | off hpc' =>
    rw [hpc] at hpc'
    cases hpc'
    simp [Process.setOff, hget]

theorem Tends.count {π : Process} (h : σ.Tends π) : π.count = σ.process.count :=
  h.unchanged.frame.count

end Daemon

/-! ## What holds in every run -/

namespace Daemon

variable {σ₀ σ σ' : Daemon} {e : LaunchEnv} {l : DaemonLabel} {ls : List DaemonLabel} {i : ℕ}

/-- Before `main` starts a scheduler.  A PID file may be left of the last run. -/
structure Initial (σ : Daemon) : Prop where
  process : σ.process.Initial
  status : ∀ i, (σ.process.thread i).s.status = .initialised
  pc : σ.pc = .start 0
  ctrlC : σ.ctrlC = false

/-- The schedulers `main` has found ready still are, and in the end the file is gone. -/
def Seen (σ : Daemon) : Prop := match σ.pc with
  | .notReady si => ∀ j < si, (σ.process.thread j).s.status = .ready
  | .remove => ∀ j < σ.process.count, (σ.process.thread j).s.status = .ready
  | .returned => (∀ j < σ.process.count, (σ.process.thread j).s.status = .ready) ∧
      σ.pidfile = .absent
  | _ => True

/-- The schedulers `main` has turned off still are. -/
def Offs (σ : Daemon) : Prop := match σ.pc with
  | .setMode si => ∀ j < si, (σ.process.thread j).s.mode = .off
  | .clear => ∀ j < σ.process.count, (σ.process.thread j).s.mode = .off
  | _ => True

/-- What holds in every state of every run. -/
structure Settled (σ : Daemon) : Prop where
  regular : σ.process.Regular
  ready : ∀ i, (σ.process.thread i).s.status = .ready → (σ.process.thread i).pc = .returned
  seen : σ.Seen
  offs : σ.Offs

theorem Initial.settled (h : σ.Initial) : σ.Settled where
  regular := h.process.regular
  ready i hi := by simp [h.status] at hi
  seen := by simp [Seen, h.pc]
  offs := by simp [Offs, h.pc]

theorem Calls.status (h : σ.Calls σ') (hpc : σ.pc ≠ .created i) :
    (σ'.process.thread i).s.status = (σ.process.thread i).s.status := by
  rcases (h.tends.tended i).status with hsame | ⟨hpc', -⟩
  · exact hsame
  · exact absurd hpc' hpc

theorem Calls.off (h : σ.Calls σ') (hpc : σ.pc ≠ .start i)
    (hoff : (σ.process.thread i).s.mode = .off) : (σ'.process.thread i).s.mode = .off := by
  rcases (h.tends.tended i).mode with hsame | hpc' | ⟨-, hoff'⟩
  · exact hsame.trans hoff
  · exact absurd hpc' hpc
  · exact hoff'

theorem Calls.seen (h : σ.Calls σ') (hpc : σ.pc ≠ .returned) (hseen : σ.Seen) : σ'.Seen := by
  have hstatus : ∀ i, σ.pc ≠ .created i → (σ.process.thread i).s.status = .ready →
      (σ'.process.thread i).s.status = .ready :=
    fun i hpc hready => (h.status hpc).trans hready
  have hcount := h.tends.count
  obtain ⟨-, hgoes, -, hfile⟩ := h
  obtain ⟨π, pc, ctrlC, pidfile⟩ := σ'
  cases hgoes with
  | quiet => exact fun j hj => absurd hj (Nat.not_lt_zero j)
  | clear => exact fun j hj => absurd hj (Nat.not_lt_zero j)
  | ready hpc hsi hready =>
    simp only [Seen, hpc] at hseen
    intro j hj
    refine hstatus j (by simp [hpc]) ?_
    rcases Nat.lt_succ_iff_lt_or_eq.1 hj with hj | rfl
    · exact hseen j hj
    · exact hready
  | allReady hpc hsi =>
    simp only [Seen, hpc] at hseen
    intro j hj
    refine hstatus j (by simp [hpc]) (hseen j ?_)
    exact (hj.trans_eq hcount).trans_le (Nat.le_of_not_lt hsi)
  | removed hpc =>
    simp only [Seen, hpc] at hseen
    exact ⟨fun j hj => hstatus j (by simp [hpc]) (hseen j (hj.trans_eq hcount)), hfile hpc⟩
  | gone hpc' => exact absurd hpc' hpc
  | create => trivial
  | loop => trivial
  | assign => trivial
  | count => trivial
  | recount => trivial
  | next => trivial
  | changed => trivial
  | unchanged => trivial
  | polled => trivial
  | opened => trivial
  | unopened => trivial
  | info => trivial
  | written => trivial
  | signalled => trivial
  | off => trivial
  | allOff => trivial
  | again => trivial

theorem Calls.offs (h : σ.Calls σ') (hoffs : σ.Offs) : σ'.Offs := by
  have hkeep : ∀ i, σ.pc ≠ .start i → (σ.process.thread i).s.mode = .off →
      (σ'.process.thread i).s.mode = .off := fun i hpc => h.off hpc
  have hcount := h.tends.count
  obtain ⟨htends, hgoes, -, -⟩ := h
  obtain ⟨π, pc, ctrlC, pidfile⟩ := σ'
  cases hgoes with
  | signalled => exact fun j hj => absurd hj (Nat.not_lt_zero j)
  | off hpc hsi =>
    simp only [Offs, hpc] at hoffs
    intro j hj
    rcases Nat.lt_succ_iff_lt_or_eq.1 hj with hj | rfl
    · exact hkeep j (by simp [hpc]) (hoffs j hj)
    · exact htends.turnsOff hpc hsi
  | allOff hpc hsi =>
    simp only [Offs, hpc] at hoffs
    intro j hj
    refine hkeep j (by simp [hpc]) (hoffs j ?_)
    exact (hj.trans_eq hcount).trans_le (Nat.le_of_not_lt hsi)
  | create => trivial
  | loop => trivial
  | assign => trivial
  | count => trivial
  | recount => trivial
  | next => trivial
  | changed => trivial
  | unchanged => trivial
  | polled => trivial
  | opened => trivial
  | unopened => trivial
  | info => trivial
  | written => trivial
  | quiet => trivial
  | clear => trivial
  | ready => trivial
  | again => trivial
  | allReady => trivial
  | removed => trivial
  | gone => trivial

/-- A step of the schedulers leaves ready and off what is so. -/
theorem Settled.other {l : Label} {π : Process} (hσ : σ.Settled)
    (h : machine.step l σ.process = .ok π) : Settled { σ with process := π } := by
  have hready : ∀ i, (σ.process.thread i).s.status = .ready → (π.thread i).s.status = .ready :=
    fun i hi => (Process.status_of_returned h (hσ.ready i hi)).trans hi
  have hcount : π.count = σ.process.count := (hσ.regular.frame_of_step h).count
  constructor
  case regular => exact hσ.regular.step h
  case ready => exact fun i => Process.ready_of_step h (hσ.ready i)
  case seen =>
    have hseen := hσ.seen
    unfold Seen at hseen ⊢
    cases hpc : σ.pc <;> simp only [hpc] at hseen ⊢
    case notReady si => exact fun j hj => hready j (hseen j hj)
    case remove => exact fun j hj => hready j (hseen j (hcount ▸ hj))
    case returned => exact ⟨fun j hj => hready j (hseen.1 j (hcount ▸ hj)), hseen.2⟩
  case offs =>
    have hoffs := hσ.offs
    unfold Offs at hoffs ⊢
    cases hpc : σ.pc <;> simp only [hpc] at hoffs ⊢
    case setMode si => exact fun j hj => Process.mode_of_step h (hoffs j hj)
    case clear => exact fun j hj => Process.mode_of_step h (hoffs j (hcount ▸ hj))

theorem Settled.step (hσ : σ.Settled) (h : daemon.step l σ = .ok σ') : σ'.Settled := by
  cases moves_of_step h with
  | rest => exact hσ
  | main hpc hcalls =>
    refine ⟨hcalls.tends.unchanged.regular hσ.regular, fun i hready => ?_, hcalls.seen hpc hσ.seen,
      hcalls.offs hσ.offs⟩
    rw [(hcalls.tends.tended i).pc]
    rcases (hcalls.tends.tended i).status with hsame | ⟨-, hrunning⟩
    · exact hσ.ready i (hsame.symm.trans hready)
    · simp [hrunning] at hready
  | signal =>
    exact ⟨hσ.regular, hσ.ready, hσ.seen, hσ.offs⟩
  | other hpc hl => exact hσ.other hl

theorem Initial.settled_of_run (h₀ : σ₀.Initial) (h : daemon.exec ls σ₀ = .ok σ) : σ.Settled :=
  Transition.System.exec_invariant (fun _ _ _ hσ h => hσ.step h) h₀.settled h

/-! ## Lost threads -/

/-- The step leaves scheduler `i` without a thread, and not ready for ever: the thread gets a child
it does not find, or `start` overwrites the status of a thread that is over already. -/
def Lost (σ : Daemon) (l : DaemonLabel) (i : ℕ) : Prop :=
  (∃ env c, l = .other (.thread i env) ∧ σ.pc.assigned i ∧
    (σ.process.thread i).reaps (env 0) σ.process.os = some c ∧
    (σ.process.thread i).s.running c.pid = none) ∨
  (∃ e, l = .main e) ∧ σ.pc = .created i ∧ (σ.process.thread i).pc = .returned

/-- No step loses a thread. -/
def LosesNone (σ : Daemon) (l : DaemonLabel) (_ : Daemon) : Prop :=
  ∀ i < σ.process.count, ¬σ.Lost l i

/-- The threads that are over are ready. -/
def Ready (σ : Daemon) : Prop := ∀ i < σ.process.count, σ.pc.assigned i →
  (σ.process.thread i).pc = .returned → (σ.process.thread i).s.status = .ready

theorem count_of_step (hσ : σ.Settled) (h : daemon.step l σ = .ok σ') :
    σ'.process.count = σ.process.count := by
  cases moves_of_step h with
  | rest => rfl
  | main hpc hcalls => exact hcalls.tends.count
  | signal => rfl
  | other hpc hl => exact (hσ.regular.frame_of_step hl).count

theorem threadRuns_of_assigned {pc : MainPc} (h : pc.assigned i) : pc.threadRuns i := by
  cases pc <;> simp only [MainPc.assigned, MainPc.threadRuns, decide_eq_true_eq] at h ⊢ <;> omega

/-- `start` assigns the status of one scheduler after the other. -/
theorem assigned_of_goes {pc : MainPc} (h : σ.Goes pc) (hi : i < σ.process.count) :
    pc.assigned i ↔ σ.pc.assigned i ∨ σ.pc = .created i := by
  cases h with
  | assign hpc =>
    simp only [MainPc.assigned, hpc, decide_eq_true_eq, MainPc.created.injEq]
    omega
  | next hpc =>
    simp only [MainPc.assigned, hpc, decide_eq_true_eq, reduceCtorEq, or_false]
    omega
  | loop hpc hsi =>
    simp only [MainPc.assigned, hpc, decide_eq_true_eq, reduceCtorEq, or_false, true_iff]
    omega
  | _ => simp [MainPc.assigned, *]

theorem Settled.ready_of_ended (hσ : σ.Settled) (hpc : σ.pc = .returned) : σ.Ready := by
  intro i hi _ _
  have hseen := hσ.seen
  simp only [Seen, hpc] at hseen
  exact hseen.1 i hi

/-- A step that loses no thread leaves those ready that are over, and one that loses a thread does
not. -/
theorem Settled.ready_iff (hσ : σ.Settled) (hready : σ.Ready) (h : daemon.step l σ = .ok σ') :
    σ'.Ready ↔ σ.LosesNone l σ' := by
  have hcount := count_of_step hσ h
  constructor
  · rintro hready' i hi (⟨env, c, rfl, hassigned, hreap, hrun⟩ | ⟨⟨e, rfl⟩, hpc, hreturned⟩)
    · have hgoing : (σ.process.thread i).s.status ≠ .ready := by
        intro hstatus
        simp [Thread.reaps, Thread.waitsFor, hσ.ready i hstatus] at hreap
      cases moves_of_step h with
      | rest hrest =>
        rcases hrest with hpc | ⟨l, he, hno⟩
        · have hseen := hσ.seen
          simp only [Seen, hpc] at hseen
          exact hgoing (hseen.1 i hi)
        · cases he
          exact absurd (threadRuns_of_assigned hassigned) (by simp [hno i env rfl])
      | @other l π hpc hl =>
        have hstep := Process.step_thread hi (Thread.step_stray hreap hrun)
        rw [hstep] at hl
        cases hl
        have hthread := hready' i hi hassigned
        simp only [Process.put, Function.update_self] at hthread
        exact hgoing (hthread trivial)
    · cases moves_of_step h with
      | rest hrest => simp [hpc] at hrest
      | main hpc' hcalls =>
        have hassigned := (assigned_of_goes hcalls.goes hi).2 (.inr hpc)
        have hstatus := hready' i (hcount ▸ hi) hassigned
          ((hcalls.tends.tended i).pc.trans hreturned)
        rw [hcalls.tends.assigns hpc] at hstatus
        cases hstatus
  · intro hnone i hi hassigned hreturned
    rw [hcount] at hi
    cases moves_of_step h with
    | rest => exact hready i hi hassigned hreturned
    | signal => exact hready i hi hassigned hreturned
    | main hpc hcalls =>
      rw [(hcalls.tends.tended i).pc] at hreturned
      have hpc' : σ.pc ≠ .created i := fun hpc' => hnone i hi (.inr ⟨⟨_, rfl⟩, hpc', hreturned⟩)
      rw [hcalls.status hpc']
      rcases (assigned_of_goes hcalls.goes hi).1 hassigned with hassigned | hpc''
      · exact hready i hi hassigned hreturned
      · exact absurd hpc'' hpc'
    | @other l π hpc hl hrun hon =>
      rcases Process.thread_of_step hl i with ⟨env, t, os, rfl, -, hstep, ht, -⟩ |
        ⟨-, s, hs, hthread⟩
      · rcases Thread.status_of_returned hstep (ht ▸ hreturned) with
          hstatus | ⟨hreturned, hstatus⟩ | ⟨c, hreap, hrun⟩
        · exact (congrArg (·.s.status) ht).trans hstatus
        · exact (congrArg (·.s.status) ht).trans (hstatus.trans (hready i hi hassigned hreturned))
        · exact absurd (.inl ⟨env, c, rfl, hassigned, hreap, hrun⟩) (hnone i hi)
      · dsimp only at hreturned ⊢
        rw [hthread] at hreturned ⊢
        exact (Process.control_of_command hs).1.trans (hready i hi hassigned hreturned)

theorem Initial.ready (h : σ.Initial) : σ.Ready := by
  intro i hi hassigned
  simp [h.pc, MainPc.assigned] at hassigned

/-- The threads that are over are ready in exactly the runs that lose no thread. -/
theorem always_ready_iff (h₀ : σ₀.Initial) (ls : List DaemonLabel) :
    daemon.Always Ready ls σ₀ ↔ daemon.Along LosesNone ls σ₀ := by
  rw [Transition.System.always_iff_along, and_iff_right h₀.ready]
  exact Transition.System.along_iff_of_invariant (I := fun σ : Daemon => σ.Settled ∧ σ.Ready)
    (fun l σ σ' hσ h => hσ.1.ready_iff hσ.2 h) (fun l σ σ' hσ h hready => ⟨hσ.1.step h, hready⟩)
    ⟨h₀.settled, h₀.ready⟩

theorem assigned_of_looping {pc : MainPc} (h : pc.looping) : pc.assigned i := by
  cases pc <;> simp [MainPc.looping, MainPc.assigned] at h ⊢

theorem assigned_of_step (hi : i < σ.process.count) (hassigned : σ.pc.assigned i)
    (h : daemon.step l σ = .ok σ') : σ'.pc.assigned i := by
  cases moves_of_step h with
  | rest => exact hassigned
  | signal => exact hassigned
  | main hpc hcalls => exact (assigned_of_goes hcalls.goes hi).2 (.inl hassigned)
  | other => exact hassigned

/-- A thread that is over stays so, with the status it has when `start` is done with it. -/
theorem returned_of_step (hassigned : σ.pc.assigned i)
    (hpc : (σ.process.thread i).pc = .returned) (h : daemon.step l σ = .ok σ') :
    (σ'.process.thread i).pc = .returned ∧
      (σ'.process.thread i).s.status = (σ.process.thread i).s.status := by
  cases moves_of_step h with
  | rest => exact ⟨hpc, rfl⟩
  | signal => exact ⟨hpc, rfl⟩
  | main hpc' hcalls =>
    refine ⟨(hcalls.tends.tended i).pc.trans hpc, hcalls.status ?_⟩
    intro he
    simp [he, MainPc.assigned] at hassigned
  | other hpc' hl => exact ⟨Process.returned_of_step hl hpc, Process.status_of_returned hl hpc⟩

/-- A lost thread is never ready again. -/
theorem ready_back (hσ : σ.Settled) (h : daemon.step l σ = .ok σ') (hready : σ'.Ready) :
    σ.Ready := by
  intro i hi hassigned hpc
  obtain ⟨hpc', hstatus⟩ := returned_of_step hassigned hpc h
  rw [← hstatus]
  exact hready i (count_of_step hσ h ▸ hi) (assigned_of_step hi hassigned h) hpc'

/-- No thread was lost in a run at whose end the threads that are over are ready. -/
theorem losesNone_iff_ready (h₀ : σ₀.Initial) (h : daemon.exec ls σ₀ = .ok σ) :
    daemon.Along LosesNone ls σ₀ ↔ σ.Ready := by
  rw [← always_ready_iff h₀]
  constructor
  · exact fun hall => Transition.System.always_iff_prefixes.1 hall ls List.prefix_rfl σ h
  · exact Transition.System.always_of_exec (fun _ _ _ hσ h => ready_back hσ h)
      (fun _ _ _ hσ h => hσ.step h) h₀.settled h

theorem looping_of_goes {pc : MainPc} (h : σ.Goes pc) (hloop : σ.pc.looping) : pc.looping := by
  cases h <;> simp_all [MainPc.looping]

theorem looping_of_step (hloop : σ.pc.looping) (h : daemon.step l σ = .ok σ') :
    σ'.pc.looping := by
  cases moves_of_step h with
  | rest => exact hloop
  | signal => exact hloop
  | main hpc hcalls => exact looping_of_goes hcalls.goes hloop
  | other => exact hloop

/-! ## The rounds of the loop -/

/-- The calls of `main` to its end when all schedulers are ready. -/
def callsToEnd (n : ℕ) : MainPc → ℕ
  | .poll si => (n - si) + (3 * n + 8)
  | .openFile => 3 * n + 7
  | .info si _ => (n - si) + (2 * n + 6)
  | .ctrlC => 2 * n + 5
  | .setMode si => (n - si) + (n + 4)
  | .clear => n + 3
  | .notReady si => (n - si) + 2
  | .remove => 1
  | _ => 0

theorem callsToEnd_le (n : ℕ) (pc : MainPc) : callsToEnd n pc ≤ 4 * n + 8 := by
  cases pc <;> simp only [callsToEnd] <;> omega

theorem callsToEnd_of_goes {pc : MainPc} (h : σ.Goes pc) (hloop : σ.pc.looping)
    (hpc : σ.pc ≠ .returned)
    (hready : ∀ i < σ.process.count, (σ.process.thread i).s.status = .ready) :
    1 + callsToEnd σ.process.count pc ≤ callsToEnd σ.process.count σ.pc := by
  cases h with
  | again hpc' hsi hno => exact absurd (hready _ hsi) hno
  | gone hpc' => exact absurd hpc' hpc
  | create hpc' => simp [hpc', MainPc.looping] at hloop
  | loop hpc' => simp [hpc', MainPc.looping] at hloop
  | assign hpc' => simp [hpc', MainPc.looping] at hloop
  | count hpc' => simp [hpc', MainPc.looping] at hloop
  | recount hpc' => simp [hpc', MainPc.looping] at hloop
  | next hpc' => simp [hpc', MainPc.looping] at hloop
  | _ =>
    simp only [callsToEnd, *]
    omega

/-- The calls of `main` until all schedulers are off when the signal has come. -/
def callsToOff (n : ℕ) : MainPc → ℕ
  | .poll si => (n - si) + (2 * n + 5)
  | .openFile => 2 * n + 4
  | .info si _ => (n - si) + (n + 3)
  | .ctrlC => n + 2
  | .setMode si => (n - si) + 1
  | .notReady si => (n - si) + (3 * n + 6)
  | .remove => 1
  | _ => 0

theorem callsToOff_le (n : ℕ) (pc : MainPc) : callsToOff n pc ≤ 4 * n + 6 := by
  cases pc <;> simp only [callsToOff] <;> omega

theorem callsToOff_of_goes {pc : MainPc} (h : σ.Goes pc) (hloop : σ.pc.looping)
    (hpc : σ.pc ≠ .returned) (hc : σ.ctrlC) (hclear : σ.pc ≠ .clear) :
    1 + callsToOff σ.process.count pc ≤ callsToOff σ.process.count σ.pc := by
  cases h with
  | quiet hpc' hno => simp [hc] at hno
  | clear hpc' => exact absurd hpc' hclear
  | gone hpc' => exact absurd hpc' hpc
  | create hpc' => simp [hpc', MainPc.looping] at hloop
  | loop hpc' => simp [hpc', MainPc.looping] at hloop
  | assign hpc' => simp [hpc', MainPc.looping] at hloop
  | count hpc' => simp [hpc', MainPc.looping] at hloop
  | recount hpc' => simp [hpc', MainPc.looping] at hloop
  | next hpc' => simp [hpc', MainPc.looping] at hloop
  | _ =>
    simp only [callsToOff, *]
    omega

/-! ## A daemon with one program -/

/-- PETeR with the one program `sleeper`, before `main` starts the scheduler. -/
def dozing : Daemon where
  process := { Process.configured [.sleeper] with
    thread := fun i =>
      { s := { Scheduler.configured i ([SchedulerConfig.sleeper].getD i {}) with
          status := .initialised } } }

theorem dozing_initial : dozing.Initial where
  process := by
    obtain ⟨hchildren, htrace, hpc, hscheduler⟩ := Process.sleeper_initial
    refine ⟨hchildren, htrace, hpc, fun i => ?_⟩
    obtain ⟨hself, hsch, hpid, hstarts, hstop, hrunning, helist⟩ := hscheduler i
    exact ⟨hself, hsch, hpid, hstarts, hstop, hrunning, helist⟩
  status _ := rfl
  pc := rfl
  ctrlC := rfl

/-- `main` starts the scheduler and enters its loop. -/
def launching : List DaemonLabel := List.replicate 5 (.main {})

/-- A signal, after which `main` goes round its loop. -/
def interrupting : List DaemonLabel := .signal :: List.replicate 12 (.main {})

/-- The thread of the scheduler runs through its shutdown. -/
def ending : List DaemonLabel := List.replicate 5 (.other (.thread 0 fun _ => {}))

theorem step_other (hpc : σ.pc ≠ .returned) (l : Label) :
    daemon.step (.other l) σ = σ.other l := by
  simp only [daemon]
  unfold step
  split
  case h_1 => exact absurd ‹_› hpc
  case h_4 he _ =>
    cases he
    rfl
  all_goals contradiction

theorem step_of_over (hi : i < σ.process.count) (hpc : (σ.process.thread i).pc = .returned)
    (env : ℕ → Env) : daemon.step (.other (.thread i env)) σ = .ok σ := by
  by_cases hmain : σ.pc = .returned
  · simp only [daemon, step, hmain]
  · rw [step_other hmain]
    unfold other
    rw [Process.step_of_returned hi hpc]
    exact ite_self _

/-! ## The end of `main` -/

/-- How often `main` is scheduled. -/
def calls (ls : List DaemonLabel) : ℕ := ls.countP DaemonLabel.isMain

theorem status_of_run (hσ : σ.Settled) (hloop : σ.pc.looping)
    (hover : ∀ i < σ.process.count, (σ.process.thread i).pc = .returned)
    (h : daemon.exec ls σ = .ok σ') : σ'.Settled ∧ σ'.pc.looping ∧
      σ'.process.count = σ.process.count ∧ ∀ i < σ.process.count,
        (σ'.process.thread i).pc = .returned ∧
          (σ'.process.thread i).s.status = (σ.process.thread i).s.status := by
  refine Transition.System.exec_invariant (I := fun τ : Daemon => τ.Settled ∧ τ.pc.looping ∧
    τ.process.count = σ.process.count ∧ ∀ i < σ.process.count,
      (τ.process.thread i).pc = .returned ∧
        (τ.process.thread i).s.status = (σ.process.thread i).s.status) ?_
    ⟨hσ, hloop, rfl, fun i hi => ⟨hover i hi, rfl⟩⟩ h
  rintro l τ τ' ⟨hτ, hloop, hcount, hover⟩ h
  refine ⟨hτ.step h, looping_of_step hloop h, (count_of_step hτ h).trans hcount, fun i hi => ?_⟩
  obtain ⟨hpc, hstatus⟩ := returned_of_step (assigned_of_looping hloop) (hover i hi).1 h
  exact ⟨hpc, hstatus.trans (hover i hi).2⟩

theorem ended_of_step (hpc : σ.pc = .returned) (h : daemon.step l σ = .ok σ') :
    σ'.pc = .returned := by
  cases moves_of_step h with
  | rest => exact hpc
  | main hno => exact absurd hpc hno
  | signal hno => exact absurd hpc hno
  | other hno => exact absurd hpc hno

/-- A measure of `main` that each of its calls takes from. -/
theorem counts_of_step {f : MainPc → ℕ} (h : daemon.step l σ = .ok σ') (hpc : σ.pc ≠ .returned)
    (hf : ∀ pc, σ.Goes pc → 1 + f pc ≤ f σ.pc) :
    (if l.isMain then 1 else 0) + f σ'.pc ≤ f σ.pc := by
  cases moves_of_step h with
  | rest hrest =>
    rcases hrest with hpc' | ⟨l', rfl, -⟩
    · exact absurd hpc' hpc
    · exact (Nat.zero_add _).le
  | main _ hcalls => exact hf _ hcalls.goes
  | signal => exact (Nat.zero_add _).le
  | other => exact (Nat.zero_add _).le

/-- `main` ends when all schedulers are ready. -/
theorem ends_of_ready (hσ : σ.Settled) (hloop : σ.pc.looping)
    (hready : ∀ i < σ.process.count, (σ.process.thread i).s.status = .ready)
    (h : daemon.exec ls σ = .ok σ') (hcalls : 4 * σ.process.count + 8 < calls ls) :
    σ'.pc = .returned := by
  have hle := callsToEnd_le σ.process.count σ.pc
  refine Transition.System.exec_done (fun τ : Daemon => callsToEnd σ.process.count τ.pc)
    (fun _ => 0) DaemonLabel.isMain
    (I := fun τ : Daemon => τ.Settled ∧ τ.pc.looping ∧ τ.process.count = σ.process.count ∧
      ∀ i < σ.process.count, (τ.process.thread i).s.status = .ready)
    ?_ (fun l τ τ' _ h hpc => ended_of_step hpc h) ?_ ⟨hσ, hloop, rfl, hready⟩ h ?_
  · rintro l τ τ' ⟨hτ, hloop, hcount, hready⟩ h
    refine ⟨hτ.step h, looping_of_step hloop h, (count_of_step hτ h).trans hcount, fun i hi => ?_⟩
    obtain ⟨-, hstatus⟩ := returned_of_step (assigned_of_looping hloop) (hτ.ready i (hready i hi)) h
    exact hstatus.trans (hready i hi)
  · rintro l τ τ' ⟨hτ, hloop, hcount, hready⟩ h hpc -
    refine counts_of_step h hpc fun pc hgoes => ?_
    rw [← hcount] at hready ⊢
    exact callsToEnd_of_goes hgoes hloop hpc hready
  · rw [calls] at hcalls
    omega

/-- When all scheduler threads are over, `main` ends when they are ready, and never when they are
not. -/
theorem Settled.ends_iff_ready (hσ : σ.Settled) (hloop : σ.pc.looping)
    (hover : ∀ i < σ.process.count, (σ.process.thread i).pc = .returned)
    (h : daemon.exec ls σ = .ok σ') (hcalls : 4 * σ.process.count + 8 < calls ls) :
    σ'.pc = .returned ↔ σ.Ready := by
  obtain ⟨hσ', -, hcount, hover'⟩ := status_of_run hσ hloop hover h
  constructor
  · intro hpc i hi _ _
    have hi' : i < σ'.process.count := hcount.symm ▸ hi
    rw [← (hover' i hi).2]
    exact hσ'.ready_of_ended hpc i hi' (by simp [hpc, MainPc.assigned]) (hover' i hi).1
  · intro hready
    exact ends_of_ready hσ hloop
      (fun i hi => hready i hi (assigned_of_looping hloop) (hover i hi)) h hcalls

/-- When all scheduler threads are over, `main` ends within so many of its own calls, or never: it
ends in exactly the runs that lose no thread. -/
theorem main_returns_iff {pre : List DaemonLabel} (h₀ : σ₀.Initial)
    (hpre : daemon.exec pre σ₀ = .ok σ) (hloop : σ.pc.looping)
    (hover : ∀ i < σ.process.count, (σ.process.thread i).pc = .returned)
    (h : daemon.exec ls σ = .ok σ') (hcalls : 4 * σ.process.count + 8 < calls ls) :
    σ'.pc = .returned ↔ daemon.Along LosesNone pre σ₀ := by
  rw [losesNone_iff_ready h₀ hpre]
  exact (h₀.settled_of_run hpre).ends_iff_ready hloop hover h hcalls

theorem main_returns_iff_dozing : ∃ σ σ',
    daemon.exec (launching ++ interrupting ++ ending) dozing = .ok σ ∧
    daemon.exec (List.replicate 13 (.main {})) σ = .ok σ' ∧ σ'.pc = .returned ∧
    daemon.Along LosesNone (launching ++ interrupting ++ ending) dozing := by
  obtain ⟨σ, σ', hpre, h, hloop, hcount, hpc, hover⟩ : ∃ σ σ',
      daemon.exec (launching ++ interrupting ++ ending) dozing = .ok σ ∧
      daemon.exec (List.replicate 13 (.main {})) σ = .ok σ' ∧ σ.pc.looping ∧
      σ.process.count = 1 ∧ σ'.pc = .returned ∧ (σ.process.thread 0).pc = .returned :=
    ⟨_, _, rfl, rfl, rfl, rfl, rfl, rfl⟩
  refine ⟨σ, σ', hpre, h, hpc, ?_⟩
  refine (main_returns_iff dozing_initial hpre hloop (fun i hi => ?_) h ?_).1 hpc
  · obtain rfl : i = 0 := by omega
    exact hover
  · rw [hcount]
    decide

/-! ## Signals -/

/-- All schedulers are off, and `main` will not turn one on. -/
def AllOff (σ : Daemon) : Prop :=
  σ.pc.looping ∧ ∀ i < σ.process.count, (σ.process.thread i).s.mode = .off

/-- A signal that has come is noted or has done its work. -/
def Heard (σ : Daemon) : Prop := σ.pc = .returned ∨ σ.ctrlC ∨ σ.AllOff

theorem AllOff.step (hσ : σ.Settled) (hoff : σ.AllOff) (h : daemon.step l σ = .ok σ') :
    σ'.AllOff := by
  refine ⟨looping_of_step hoff.1 h, fun i hi => ?_⟩
  have hmode := hoff.2 i (count_of_step hσ h ▸ hi)
  cases moves_of_step h with
  | rest => exact hmode
  | signal => exact hmode
  | main hpc hcalls =>
    refine hcalls.off (fun he => ?_) hmode
    have hloop := hoff.1
    simp [he, MainPc.looping] at hloop
  | other hpc hl => exact Process.mode_of_step hl hmode

theorem Settled.allOff (hσ : σ.Settled) (hpc : σ.pc = .clear) : σ.AllOff := by
  have hoffs := hσ.offs
  simp only [Offs, hpc] at hoffs
  exact ⟨by simp [hpc, MainPc.looping], hoffs⟩

theorem Heard.step (hσ : σ.Settled) (hheard : σ.Heard) (h : daemon.step l σ = .ok σ') :
    σ'.Heard := by
  rcases hheard with hpc | hc | hoff
  · exact .inl (ended_of_step hpc h)
  · cases moves_of_step h with
    | rest => exact .inr (.inl hc)
    | signal => exact .inr (.inl rfl)
    | main hpc hcalls =>
      rcases hcalls.ctrlC with hsame | hclear
      · exact .inr (.inl (hsame.trans hc))
      · exact .inr (.inr ((hσ.allOff hclear).step hσ h))
    | other => exact .inr (.inl hc)
  · exact .inr (.inr (hoff.step hσ h))

theorem heard_of_signal (h : daemon.step .signal σ = .ok σ') : σ'.Heard := by
  cases moves_of_step h with
  | rest hrest => exact .inl (hrest.resolve_right nofun)
  | signal => exact .inr (.inl rfl)

/-- After so many calls of its loop `main` has turned all schedulers off. -/
theorem Heard.allOff (hheard : σ.Heard) (hσ : σ.Settled) (hloop : σ.pc.looping)
    (h : daemon.exec ls σ = .ok σ') (hcalls : 4 * σ.process.count + 6 < calls ls) :
    σ'.pc = .returned ∨ σ'.AllOff := by
  have hle := callsToOff_le σ.process.count σ.pc
  refine Transition.System.exec_done (fun ρ : Daemon => callsToOff σ.process.count ρ.pc)
    (fun _ => 0) DaemonLabel.isMain (D := fun ρ => ρ.pc = .returned ∨ ρ.AllOff)
    (I := fun ρ : Daemon => ρ.Settled ∧ ρ.process.count = σ.process.count ∧ ρ.Heard ∧
      ρ.pc.looping)
    (fun l ρ ρ' hρ h => ⟨hρ.1.step h, (count_of_step hρ.1 h).trans hρ.2.1, hρ.2.2.1.step hρ.1 h,
      looping_of_step hρ.2.2.2 h⟩) ?_ ?_ ⟨hσ, rfl, hheard, hloop⟩ h ?_
  · rintro l ρ ρ' ⟨hρ, -⟩ h (hpc | hoff)
    · exact .inl (ended_of_step hpc h)
    · exact .inr (hoff.step hρ h)
  · rintro l ρ ρ' ⟨hρ, hcount, hheard, hloop⟩ h hnot -
    have hpc : ρ.pc ≠ .returned := fun hpc => hnot (.inl hpc)
    have hc : ρ.ctrlC := by
      rcases hheard with hpc' | hc | hoff
      · exact absurd hpc' hpc
      · exact hc
      · exact absurd (.inr hoff) hnot
    refine counts_of_step h hpc fun pc hgoes => ?_
    rw [← hcount]
    exact callsToOff_of_goes hgoes hloop hpc hc fun hclear => hnot (.inr (hρ.allOff hclear))
  · rw [calls] at hcalls
    omega

/-- A signal is not lost: it stays noted until all schedulers are off for good, which they are
within so many calls of the loop of `main`. -/
theorem signal_kept {pre : List DaemonLabel} (h₀ : σ₀.Initial)
    (hpre : daemon.exec pre σ₀ = .ok σ) (h : daemon.exec (.signal :: ls) σ = .ok σ') :
    σ'.Heard ∧ (σ.pc.looping → 4 * σ.process.count + 6 < calls ls →
      σ'.pc = .returned ∨ σ'.AllOff) := by
  obtain ⟨τ, hτ, h⟩ := Transition.System.exec_cons_eq_ok.1 h
  have hσ := h₀.settled_of_run hpre
  have hheard := heard_of_signal hτ
  constructor
  · exact (Transition.System.exec_invariant (I := fun ρ : Daemon => ρ.Settled ∧ ρ.Heard)
      (fun l ρ ρ' hρ h => ⟨hρ.1.step h, hρ.2.step hρ.1 h⟩) ⟨hσ.step hτ, hheard⟩ h).2
  · intro hloop hcalls
    rw [← count_of_step hσ hτ] at hcalls
    exact hheard.allOff (hσ.step hτ) (looping_of_step hloop hτ) h hcalls

theorem signal_kept_dozing : ∃ σ σ', daemon.exec launching dozing = .ok σ ∧
    daemon.exec interrupting σ = .ok σ' ∧ σ'.Heard ∧ (σ'.pc = .returned ∨ σ'.AllOff) := by
  obtain ⟨σ, σ', hpre, h, hloop, hcount⟩ : ∃ σ σ', daemon.exec launching dozing = .ok σ ∧
      daemon.exec interrupting σ = .ok σ' ∧ σ.pc.looping ∧ σ.process.count = 1 :=
    ⟨_, _, rfl, rfl, rfl, rfl⟩
  obtain ⟨hheard, hoff⟩ := signal_kept dozing_initial hpre h
  refine ⟨σ, σ', hpre, h, hheard, hoff hloop ?_⟩
  rw [hcount]
  decide

/-- How often thread `i` is scheduled. -/
def turns (i : ℕ) (ls : List DaemonLabel) : ℕ := ls.countP (DaemonLabel.own i)

theorem doomed_of_step (hloop : σ.pc.looping) (h : daemon.step l σ = .ok σ')
    (hd : (σ.process.thread i).Doomed) : (σ'.process.thread i).Doomed := by
  cases moves_of_step h with
  | rest => exact hd
  | signal => exact hd
  | main hpc hcalls =>
    obtain ⟨hpc', hsch, -, -⟩ := hcalls.tends.tended i
    rcases hd with hin | hoff | hexit
    · left
      unfold Thread.inLoop at hin ⊢
      rwa [hpc']
    · refine .inr (.inl (hcalls.off ?_ hoff))
      intro he
      simp [he, MainPc.looping] at hloop
    · right
      right
      rwa [hsch]
  | other hpc hl => exact Process.doomed_of_step hl hd

/-- What a step costs a doomed thread. -/
theorem left_of_step (hσ : σ.Settled) (hloop : σ.pc.looping) (h : daemon.step l σ = .ok σ')
    (hi : i < σ.process.count) (hd : (σ.process.thread i).Doomed)
    (hnot : ¬(σ.pc = .returned ∨ (σ.process.thread i).pc = .returned)) :
    (if l.own i then 1 else 0) +
        ((σ'.process.thread i).left WorkUnit.isExit + σ'.process.os.children.length) +
        (σ.process.os.forks + 2 * (σ.process.thread i).s.schedule.added.length) ≤
      (σ.process.thread i).left WorkUnit.isExit + σ.process.os.children.length +
        (σ'.process.os.forks + 2 * (σ'.process.thread i).s.schedule.added.length) := by
  obtain ⟨hmain, hthread⟩ := not_or.1 hnot
  have hrun : σ.pc.threadRuns i := threadRuns_of_assigned (assigned_of_looping hloop)
  cases moves_of_step h with
  | rest hrest =>
    have hown : l.own i = false := by
      rcases hrest with hpc | ⟨l, rfl, hno⟩
      · exact absurd hpc hmain
      · exact Label.own_eq_false fun env he => by simp [hno i env he] at hrun
    rw [hown]
    simp only [Bool.false_eq_true, if_false]
    omega
  | signal =>
    simp only [DaemonLabel.own, Bool.false_eq_true, if_false]
    omega
  | main hpc hcalls =>
    obtain ⟨hpc', hsch, hmode, -⟩ := hcalls.tends.tended i
    have hsame := hcalls.tends.unchanged
    have hos : σ'.process.os = σ.process.os := congrArg Books.os hsame.books
    have hmode : (σ'.process.thread i).s.mode = (σ.process.thread i).s.mode ∨
        (σ'.process.thread i).s.mode = .off := by
      rcases hmode with hmode | hstart | ⟨-, hoff⟩
      · exact .inl hmode
      · simp [hstart, MainPc.looping] at hloop
      · exact .inr hoff
    have hleft := Thread.left_off (P := WorkUnit.isExit) hpc' hsch
      (hsame.frame.scheduler i).programs hmode
    simp only [DaemonLabel.own, Bool.false_eq_true, if_false, hos, hsch]
    omega
  | other hpc hl => exact hσ.regular.left_of_doomed hl hi hd hthread

theorem triesLeft_of_step (h : daemon.step l σ = .ok σ') (ht : (σ.process.thread i).TriesLeft) :
    (σ'.process.thread i).TriesLeft := by
  cases moves_of_step h with
  | rest => exact ht
  | signal => exact ht
  | main hpc hcalls =>
    unfold Thread.TriesLeft at ht ⊢
    rwa [(hcalls.tends.tended i).pc]
  | other hpc hl => exact Process.triesLeft_of_step hl ht

theorem Initial.triesLeft_of_run (h₀ : σ₀.Initial) (h : daemon.exec ls σ₀ = .ok σ) (i : ℕ) :
    (σ.process.thread i).TriesLeft :=
  Transition.System.exec_invariant (fun _ _ _ ht h => triesLeft_of_step h ht)
    (h₀.process.triesLeft i) h

/-- The steps thread `i` may take to its end: from `σ`, when by `σ'` so many processes were started
and so many units queued. -/
def stepsLeft (σ σ' : Daemon) (i : ℕ) : ℕ :=
  let t := σ.process.thread i
  2 * t.s.schedule.units.length + 10008 * t.s.programs.length + 21012 +
    σ.process.os.children.length + (σ'.process.os.forks - σ.process.os.forks) +
    2 * ((σ'.process.thread i).s.schedule.added.length - t.s.schedule.added.length)

/-- A doomed thread comes to its end. -/
theorem thread_ends {pre : List DaemonLabel} (h₀ : σ₀.Initial)
    (hpre : daemon.exec pre σ₀ = .ok σ) (hloop : σ.pc.looping) (hi : i < σ.process.count)
    (hd : (σ.process.thread i).Doomed) (h : daemon.exec ls σ = .ok σ')
    (hturns : σ.stepsLeft σ' i < turns i ls) :
    σ'.pc = .returned ∨ (σ'.process.thread i).pc = .returned := by
  have hle := Thread.left_le WorkUnit.isExit (h₀.triesLeft_of_run hpre i)
  refine Transition.System.exec_done
    (fun τ : Daemon => (τ.process.thread i).left WorkUnit.isExit + τ.process.os.children.length)
    (fun τ => τ.process.os.forks + 2 * (τ.process.thread i).s.schedule.added.length)
    (DaemonLabel.own i) (D := fun τ => τ.pc = .returned ∨ (τ.process.thread i).pc = .returned)
    (I := fun τ : Daemon => τ.Settled ∧ τ.process.count = σ.process.count ∧ τ.pc.looping ∧
      (τ.process.thread i).Doomed)
    (fun l τ τ' hτ h => ⟨hτ.1.step h, (count_of_step hτ.1 h).trans hτ.2.1,
      looping_of_step hτ.2.2.1 h, doomed_of_step hτ.2.2.1 h hτ.2.2.2⟩) ?_ ?_
    ⟨h₀.settled_of_run hpre, rfl, hloop, hd⟩ h ?_
  · rintro l τ τ' ⟨-, -, hloop, -⟩ h (hpc | hpc)
    · exact .inl (ended_of_step hpc h)
    · exact .inr (returned_of_step (assigned_of_looping hloop) hpc h).1
  · rintro l τ τ' ⟨hτ, hcount, hloop, hd⟩ h hnot -
    exact left_of_step hτ hloop h (hcount.symm ▸ hi) hd hnot
  · rw [turns, stepsLeft] at hturns
    omega

theorem ended_of_run (hpc : σ.pc = .returned) (h : daemon.exec ls σ = .ok σ') :
    σ'.pc = .returned :=
  Transition.System.exec_invariant (I := fun ρ : Daemon => ρ.pc = .returned)
    (fun _ _ _ hρ h => ended_of_step hρ h) hpc h

theorem looping_of_run (hσ : σ.Settled) (hloop : σ.pc.looping) (h : daemon.exec ls σ = .ok σ') :
    σ'.process.count = σ.process.count ∧ σ'.pc.looping :=
  (Transition.System.exec_invariant
    (I := fun ρ : Daemon => ρ.Settled ∧ ρ.process.count = σ.process.count ∧ ρ.pc.looping)
    (fun _ _ _ hρ h => ⟨hρ.1.step h, (count_of_step hρ.1 h).trans hρ.2.1,
      looping_of_step hρ.2.2 h⟩) ⟨hσ, rfl, hloop⟩ h).2

/-- When all threads are on their way to return and get to it, `main` ends too, unless one of them
was lost. -/
theorem ends_iff_of_doomed {pre ls₁ ls₂ : List DaemonLabel} {σ₁ σ₂ : Daemon} (h₀ : σ₀.Initial)
    (hpre : daemon.exec pre σ₀ = .ok σ) (hloop : σ.pc.looping)
    (hd : σ.pc = .returned ∨ ∀ i < σ.process.count, (σ.process.thread i).Doomed)
    (h₁ : daemon.exec ls₁ σ = .ok σ₁)
    (hthreads : ∀ i < σ.process.count, σ.stepsLeft σ₁ i < turns i ls₁)
    (h₂ : daemon.exec ls₂ σ₁ = .ok σ₂) (hlast : 4 * σ.process.count + 8 < calls ls₂) :
    σ₂.pc = .returned ↔ daemon.Along LosesNone (pre ++ ls₁) σ₀ := by
  have hpre₁ : daemon.exec (pre ++ ls₁) σ₀ = .ok σ₁ :=
    Transition.System.exec_append_eq_ok.2 ⟨σ, hpre, h₁⟩
  have hσ₁ := h₀.settled_of_run hpre₁
  obtain ⟨hcount, hloop₁⟩ := looping_of_run (h₀.settled_of_run hpre) hloop h₁
  rw [losesNone_iff_ready h₀ hpre₁]
  by_cases hend : σ₁.pc = .returned
  · exact iff_of_true (ended_of_run hend h₂) (hσ₁.ready_of_ended hend)
  · have hover : ∀ i < σ₁.process.count, (σ₁.process.thread i).pc = .returned := by
      intro i hi
      rw [hcount] at hi
      have hdoomed := (hd.resolve_left fun hpc => hend (ended_of_run hpc h₁)) i hi
      exact (thread_ends h₀ hpre hloop hi hdoomed h₁ (hthreads i hi)).resolve_left hend
    refine hσ₁.ends_iff_ready hloop₁ hover h₂ ?_
    rwa [hcount]

/-- What becomes of a signal: `main` turns the schedulers off, their threads come to their ends,
and then `main` ends too, unless a thread was lost on the way. -/
theorem signal_ends_iff {pre ls₁ ls₂ ls₃ : List DaemonLabel} {σ₁ σ₂ σ₃ : Daemon} (h₀ : σ₀.Initial)
    (hpre : daemon.exec pre σ₀ = .ok σ) (hloop : σ.pc.looping)
    (h₁ : daemon.exec (.signal :: ls₁) σ = .ok σ₁)
    (hfirst : 4 * σ.process.count + 6 < calls ls₁) (h₂ : daemon.exec ls₂ σ₁ = .ok σ₂)
    (hthreads : ∀ i < σ.process.count, σ₁.stepsLeft σ₂ i < turns i ls₂)
    (h₃ : daemon.exec ls₃ σ₂ = .ok σ₃) (hlast : 4 * σ.process.count + 8 < calls ls₃) :
    σ₃.pc = .returned ↔ daemon.Along LosesNone (pre ++ (.signal :: ls₁) ++ ls₂) σ₀ := by
  have hσ := h₀.settled_of_run hpre
  have hpre₁ : daemon.exec (pre ++ (.signal :: ls₁)) σ₀ = .ok σ₁ :=
    Transition.System.exec_append_eq_ok.2 ⟨σ, hpre, h₁⟩
  obtain ⟨hcount, hloop₁⟩ := looping_of_run hσ hloop h₁
  rw [← hcount] at hthreads hlast
  refine ends_iff_of_doomed h₀ hpre₁ hloop₁ ?_ h₂ hthreads h₃ hlast
  obtain ⟨τ, hτ, h₁⟩ := Transition.System.exec_cons_eq_ok.1 h₁
  rw [← count_of_step hσ hτ] at hfirst
  refine ((heard_of_signal hτ).allOff (hσ.step hτ) (looping_of_step hloop hτ) h₁ hfirst).imp id ?_
  exact fun hoff i hi => .inr (.inl (hoff.2 i hi))

/-- The thread runs on for longer than it takes. -/
def endingForLong : List DaemonLabel :=
  ending ++ List.replicate 40000 (.other (.thread 0 fun _ => {}))

theorem signal_ends_iff_dozing : ∃ σ σ₁ σ₂ σ₃, daemon.exec launching dozing = .ok σ ∧
    daemon.exec interrupting σ = .ok σ₁ ∧ daemon.exec endingForLong σ₁ = .ok σ₂ ∧
    daemon.exec (List.replicate 13 (.main {})) σ₂ = .ok σ₃ ∧ σ₃.pc = .returned ∧
    daemon.Along LosesNone (launching ++ interrupting ++ endingForLong) dozing := by
  obtain ⟨σ, σ₁, σ₂, σ₃, hpre, hloop, hcount, h₁, h₂, hone, hover, hleft, h₃, hpc⟩ : ∃ σ σ₁ σ₂ σ₃,
      daemon.exec launching dozing = .ok σ ∧ σ.pc.looping ∧ σ.process.count = 1 ∧
      daemon.exec interrupting σ = .ok σ₁ ∧ daemon.exec ending σ₁ = .ok σ₂ ∧
      0 < σ₂.process.count ∧ (σ₂.process.thread 0).pc = .returned ∧
      σ₁.stepsLeft σ₂ 0 < 40000 ∧ daemon.exec (List.replicate 13 (.main {})) σ₂ = .ok σ₃ ∧
      σ₃.pc = .returned :=
    ⟨_, _, _, _, rfl, rfl, rfl, rfl, rfl, by decide, rfl, by decide, rfl, rfl⟩
  have h₂' : daemon.exec endingForLong σ₁ = .ok σ₂ := by
    refine Transition.System.exec_append_eq_ok.2 ⟨σ₂, h₂, ?_⟩
    exact Transition.System.exec_replicate_eq_ok (step_of_over hone hover _) 40000
  have hturns : 40000 ≤ turns 0 endingForLong := by
    rw [turns, endingForLong, List.countP_append, List.countP_replicate]
    exact Nat.le_add_left _ _
  refine ⟨σ, σ₁, σ₂, σ₃, hpre, h₁, h₂', h₃, hpc, ?_⟩
  refine (signal_ends_iff dozing_initial hpre hloop h₁ ?_ h₂' (fun i hi => ?_) h₃ ?_).1 hpc
  · rw [hcount]
    decide
  · obtain rfl : i = 0 := by omega
    exact hleft.trans_le hturns
  · rw [hcount]
    decide

end Daemon

end Peter
