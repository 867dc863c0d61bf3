import Peter.Bookkeeping
import Peter.Deeds

/-!
# Starts that fail

`run` looks at the pid, the home directory, the binary and the two output files before it forks, and
may return at each of them.  A start that came to nothing leaves the programs, the event list and
the `running` map as they were, also when it was that of a start unit (`failed_start`).
-/

namespace Peter

/-- The unit that a start of `p` queues when the home directory or the binary is missing. -/
def Scheduler.refusal (s : Scheduler) (e : Env) (p : ProgPtr) : List WorkUnit :=
  if (s.prog p).pid = 0 ∧ e.missing (s.prog p) then
    [⟨s.schedule.nextAddr, .exit, e.now, some p⟩]
  else []

/-- Nothing came of a start of `p`: no program has another pid, number of starts, time or place in
its sequence, no event is logged, no process is entered, and a unit is queued only for a missing
home directory or binary. -/
structure Scheduler.Unstarted (e : Env) (p : ProgPtr) (s s' : Scheduler) : Prop where
  life : ∀ q, (s'.prog q).life = (s.prog q).life
  elist : s'.elist = s.elist
  running : ∀ pid, 0 < pid → s'.running pid = s.running pid
  added : s'.schedule.added = s.schedule.added ++ s.refusal e p

namespace World

variable {w w' : World} {p : ProgPtr} {e : Env}

theorem unstarted_of_run (h : w.run e p = .ok w') (hno : w'.os.trace = w.os.trace) :
    w.s.Unstarted e p w'.s := by
  have hcmd : ∀ hpid : (w.prog p).pid = 0, ∀ cmd q, ((w.setCmd p cmd).prog q).life =
      (w.prog q).life := fun hpid cmd => (still_setCmd hpid cmd).life
  have hno_unit : ¬((w.prog p).pid = 0 ∧ e.missing (w.prog p)) → w.s.refusal e p = [] :=
    fun hp => if_neg hp
  cases ran_of_run h with
  | running hpid =>
    refine ⟨fun _ => rfl, rfl, fun _ _ => rfl, ?_⟩
    rw [hno_unit fun hp => hpid hp.1, List.append_nil]
  | missing hpid hmissing =>
    refine ⟨hcmd hpid _, rfl, fun _ _ => rfl, ?_⟩
    rw [show w.s.refusal e p = _ from if_pos ⟨hpid, hmissing⟩]
    rfl
  | refused hpid hfound =>
    refine ⟨hcmd hpid _, rfl, fun _ _ => rfl, ?_⟩
    rw [hno_unit fun hp => by simp [hfound] at hp, List.append_nil]
    rfl
  | launched =>
    -- a fork is recorded
    simp [launched, forked, OS.fork, setCmd, modifyProg, addEvent, setRunning] at hno

end World

namespace Thread

variable {t t' : Thread} {os os' : OS} {env : ℕ → Env} {p : ProgPtr}

/-- The step at a due start unit calls `run` and enters the program in the map. -/
theorem AtStart.step (hat : t.AtStart p) (h : t.step env os = .ok (t', os')) : ∃ now wui wu w,
    World.run (env 0) p ⟨t.s, os⟩ = .ok w ∧ (⟨t'.s, os'⟩ : World) =
      (w.markUsed wui wu now).setRunning ((w.markUsed wui wu now).prog p).pid (some p) := by
  obtain ⟨now, wui, wu, hpc, hwu, hty, hdue, hp⟩ := hat
  have hw := handleUnit_of_step hpc hwu h
  simp only [World.handleUnit, hty, if_pos hdue, hp] at hw
  cases hrun : World.run (env 0) p ⟨t.s, os⟩ with
  | error => rw [hrun] at hw; cases hw
  | ok w =>
    rw [hrun] at hw
    exact ⟨now, wui.pos, wu, w, rfl, (Except.ok.inj hw).symm⟩

/-- What the branch does after `run` has returned keeps a program that was not started as it was,
when the map has the program under its pid. -/
theorem AtStart.unstarted (hat : t.AtStart p) (h : t.step env os = .ok (t', os'))
    (hno : os'.trace = os.trace)
    (hknown : (t.s.prog p).pid ≠ 0 → t.s.running (t.s.prog p).pid = some p) :
    t.s.Unstarted (env 0) p t'.s := by
  obtain ⟨now, pos, wu, w, hrun, hw⟩ := hat.step h
  have hs : t'.s = ((w.markUsed pos wu now).setRunning
      ((w.markUsed pos wu now).prog p).pid (some p)).s := congrArg World.s hw
  have hos : os' = w.os := congrArg World.os hw
  rw [hos] at hno
  obtain ⟨hlife, helist, hrunning, hadded⟩ := World.unstarted_of_run hrun hno
  have hpid : (w.prog p).pid = (t.s.prog p).pid := congrArg Life.pid (hlife p)
  rw [hs]
  refine ⟨hlife, helist, fun pid hpos => ?_, hadded⟩
  show Function.update w.s.running (w.prog p).pid (some p) pid = t.s.running pid
  by_cases he : pid = (w.prog p).pid
  · rw [he, Function.update_self, hpid, hknown (by omega)]
  · rw [Function.update_of_ne he, hrunning pid hpos]

end Thread

namespace Process

variable {σ₀ σ : Process}

/-- A start that does not fork leaves everything but the schedule as it was, when `run` returns and
when the step of a start unit is over. -/
theorem failed_start {ls : List Label} (h₀ : σ₀.Initial) (h1 : σ₀.count = 1)
    (h : machine.exec ls σ₀ = .ok σ) (p : ProgPtr) :
    (∀ e w w', World.run e p w = .ok w' → w'.os.trace = w.os.trace → w.s.Unstarted e p w'.s) ∧
    ∀ env σ', (σ.thread 0).AtStart p → machine.step (.thread 0 env) σ = .ok σ' →
      σ'.os.trace = σ.os.trace → σ.sched.Unstarted (env 0) p σ'.sched := by
  refine ⟨fun e w w' => World.unstarted_of_run, fun env σ' hat hstep hno => ?_⟩
  have hcount := (kept_run h₀ h1 h).2
  rcases thread_of_step hstep 0 with ⟨env', t, os, he, -, ht, rfl, rfl⟩ | ⟨hl, -⟩
  · cases he
    exact hat.unstarted ht hno ((bookkeeping h₀ h1 h).known p)
  · exact absurd (hl env rfl) (by omega)

/-- The home directory of the program is gone when its start unit is due. -/
theorem failed_start_sleeper : ∃ σ σ',
    machine.exec [.thread 0 fun _ => {}] (.configured [.sleeper]) = .ok σ ∧
    machine.step (.thread 0 fun _ => { checkDir := fun _ => false }) σ = .ok σ' ∧
    σ.sched.Unstarted { checkDir := fun _ => false } 0 σ'.sched ∧
    σ.sched.refusal { checkDir := fun _ => false } 0 = [⟨1, .exit, 0, some 0⟩] := by
  obtain ⟨σ, σ', hσ, hat, hstep, hno, hunit⟩ : ∃ σ σ',
      machine.exec [.thread 0 fun _ => {}] (.configured [.sleeper]) = .ok σ ∧
      (σ.thread 0).AtStart 0 ∧
      machine.step (.thread 0 fun _ => { checkDir := fun _ => false }) σ = .ok σ' ∧
      σ'.os.trace = σ.os.trace ∧
      σ.sched.refusal { checkDir := fun _ => false } 0 = [⟨1, .exit, 0, some 0⟩] :=
    ⟨_, _, rfl, ⟨0, ⟨0, 20⟩, _, rfl, rfl, rfl, by decide, rfl⟩, rfl, rfl, by decide⟩
  exact ⟨σ, σ', hσ, hstep,
    (failed_start sleeper_initial rfl hσ 0).2 (fun _ => { checkDir := fun _ => false }) σ' hat
      hstep hno, hunit⟩

end Process

end Peter
