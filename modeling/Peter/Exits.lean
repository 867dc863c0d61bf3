import Peter.Queue

/-!
# Starts after an exit unit

A `WT_EXIT` unit only switches the scheduler off.  The rest of its first pass and its reaper go on
as before, so that a start unit behind the exit unit, or the actions for a death seen in that
pass, still start a program (`no_start_after_exit_iff`).
-/

namespace Peter

/-! ## When `what_next` starts its program -/

/-- The action runs the program `p` that it belongs to at once. -/
def Action.Reruns (s : Scheduler) (p : ProgPtr) (a : Action) : Prop :=
  a.actionType = .exec ∧ a.after = 0 ∧ (s.getProgramByName a.prog).getD p = p

/-- `minruntime` or `starts` is reached. -/
def Program.limitReached (utc : ℤ) (p : Program) : Prop :=
  (p.limits.minruntime ≠ -1 ∧ p.getRuntime utc < p.limits.minruntime) ∨
    (p.limits.starts ≠ -1 ∧ (p.starts : ℤ) > p.limits.starts)

/-- After its last command, a program ends with a result or a signal for which one of its actions
runs it again, and can start when that action is taken. -/
structure Program.RunsAgain (s : Scheduler) (env : ℕ → Env) (res sig : ℤ) (p : ProgPtr)
    (prog : Program) : Prop where
  last : prog.seqIdx + 1 = prog.seq.length
  limits : ¬prog.limitReached (env 0).utc
  action : ∃ al, prog.getActions res sig = some al ∧ ∃ k a, al[k]? = some a ∧ a.Reruns s p ∧
    (env (k + 1)).startable { prog with seqIdx := 0 }

theorem Scheduler.Frame.reruns {s s' : Scheduler} (h : s.Frame s') {p : ProgPtr} {a : Action} :
    a.Reruns s' p ↔ a.Reruns s p := by
  unfold Action.Reruns
  rw [h.getProgramByName]

theorem Scheduler.Frame.runsAgain {s s' : Scheduler} (h : s.Frame s') {env : ℕ → Env}
    {res sig : ℤ} {p : ProgPtr} {prog : Program} :
    prog.RunsAgain s' env res sig p ↔ prog.RunsAgain s env res sig p := by
  constructor
  · rintro ⟨hl, hno, al, hal, k, a, ha, hr, hok⟩
    exact ⟨hl, hno, al, hal, k, a, ha, h.reruns.1 hr, hok⟩
  · rintro ⟨hl, hno, al, hal, k, a, ha, hr, hok⟩
    exact ⟨hl, hno, al, hal, k, a, ha, h.reruns.2 hr, hok⟩

/-- The death of `c`, seen at `now`, makes its program `p` run again. -/
def Child.RunsAgain (s : Scheduler) (env : ℕ → Env) (now : ℤ) (p : ProgPtr) (c : Child) : Prop :=
  let status := c.status.getD 0
  let sig := if wifsignaled status then wtermsig status else 0
  Program.RunsAgain s env (wexitstatus status) sig p { s.prog p with pid := 0, tEnd := now }

namespace World

variable {w w' : World} {p : ProgPtr} {e : Env} {env : ℕ → Env} {res sig : ℤ}

theorem run_seqIdx (h : w.run e p = .ok w') : (w'.prog p).seqIdx = (w.prog p).seqIdx := by
  cases ran_of_run h with
  | running => rfl
  | missing => simp [setCmd, addWorkunit, prog, modifyProg]
  | refused => simp [setCmd, prog, modifyProg]
  | launched => simp [launched, setCmd, forked, addEvent, setRunning, prog, modifyProg]

/-- `run` starts an idle program when it can. -/
theorem run_pid_iff (hpid : (w.prog p).pid = 0) (h : w.run e p = .ok w') :
    (w'.prog p).pid ≠ 0 ↔ e.startable (w.prog p) := by
  rcases run_cases h with ⟨hq, hno⟩ | ⟨-, hok, hint, w₁, -, -, rfl⟩
  · rw [hq.pid p]
    exact iff_of_false (not_not.2 hpid) fun hok => hno ⟨hpid, hok⟩
  · rw [forked_pid]
    exact iff_of_true (w₁.os.freshPid_pos hint).ne' hok

/-- A call of `what_next` that leaves an idle program idle has not started it. -/
theorem Restart.quiet (h : w.Restart p w') (hpid' : (w'.prog p).pid = 0) : w.Quiet w' := by
  rcases h with h | ⟨e, hint, w₁, -, -, h₂⟩
  · exact h
  · rw [h₂.pid, forked_pid] at hpid'
    exact absurd hpid' (w₁.os.freshPid_pos hint).ne'

/-- A program that runs is not started. -/
theorem Restart.pid_ne_zero (h : w.Restart p w') (hpid : (w.prog p).pid ≠ 0) :
    (w'.prog p).pid ≠ 0 := by
  rcases h with h | ⟨e, hint, w₁, h₁, hpid₁, -⟩
  · rwa [h.pid]
  · exact absurd ((h₁.pid p).symm.trans hpid₁) hpid

theorem setAttribs_seqIdx (w : World) (p q r : ProgPtr) (res sig : ℤ) :
    ((w.setAttribs p q res sig).prog r).seqIdx = (w.prog r).seqIdx := by
  unfold setAttribs
  dsimp only
  rw [addSAttrib_seqIdx, addSAttrib_seqIdx, addSAttrib_seqIdx]

/-- What an action does to its own program. -/
theorem doAction_own {lim : Bool} {a : Action}
    (h : w.doAction e p res sig lim a = .ok w') :
    (w'.prog p).seqIdx = (w.prog p).seqIdx ∧ ((w.prog p).pid = 0 →
      ((w'.prog p).pid ≠ 0 ↔ lim = false ∧ a.Reruns w.s p ∧ e.startable (w.prog p))) := by
  have hq : ∀ q, w.Quiet (w.setAttribs p q res sig) := fun q => w.quiet_setAttribs p q res sig
  -- a world in which nothing was run
  have hidle : ¬(a.actionType = .exec ∧ lim = false ∧ w.target p a = p ∧ a.after = 0) →
      (w.prog p).pid = 0 → ((w.prog p).pid ≠ 0 ↔
        lim = false ∧ a.Reruns w.s p ∧ e.startable (w.prog p)) := by
    intro hno hpid
    refine iff_of_false (not_not.2 hpid) ?_
    rintro ⟨hlim, ⟨hty, hafter, htarget⟩, -⟩
    exact hno ⟨hty, hlim, htarget, hafter⟩
  cases acted_of_doAction h with
  | direct hty hlim htarget hafter hrun =>
    have hidx := w.setAttribs_seqIdx p p p res sig
    refine ⟨(run_seqIdx hrun).trans hidx, fun hpid => ?_⟩
    have hok := ((hq p).frame.prog p).startable hidx e
    rw [run_pid_iff (((hq p).pid p).trans hpid) hrun,
      show e.startable ((w.setAttribs p p res sig).prog p) = _ from hok]
    rw [and_iff_right hlim, and_iff_right (show a.Reruns w.s p from ⟨hty, hafter, htarget⟩)]
    rfl
  | queued hunit =>
    refine ⟨w.setAttribs_seqIdx p _ p res sig, fun hpid => ?_⟩
    rw [((hq _).trans (quiet_addWorkunit ..)).pid p]
    refine hidle ?_ hpid
    rintro ⟨hty, -, htarget, hafter⟩
    simp [Action.unit, hty, htarget, hafter] at hunit
  | passed _ hno =>
    refine ⟨w.setAttribs_seqIdx p _ p res sig, fun hpid => ?_⟩
    rw [(hq _).pid p]
    exact hidle hno hpid

/-- The actions start an idle program when one of them runs it at once and it can start then. -/
theorem doActions_pid_iff {lim : Bool} {al : List Action} (hpid : (w.prog p).pid = 0)
    (h : w.doActions p res sig lim al env = .ok w') : (w'.prog p).pid ≠ 0 ↔
      lim = false ∧ ∃ k a, al[k]? = some a ∧ a.Reruns w.s p ∧ (env k).startable (w.prog p) := by
  induction al generalizing env w with
  | nil =>
    cases h
    simp [hpid]
  | cons a al ih =>
    rw [doActions] at h
    split at h
    case h_2 => cases h
    next w₁ hw₁ =>
      obtain ⟨hidx, hpid₁⟩ := doAction_own hw₁
      by_cases hstart : (w₁.prog p).pid = 0
      · have hq := (restart_doAction hw₁).quiet hstart
        have hfirst := mt (hpid₁ hpid).2 (not_not.2 hstart)
        rw [ih hstart h]
        refine and_congr_right fun hlim => ⟨?_, ?_⟩
        · rintro ⟨k, b, hb, hr, hok⟩
          refine ⟨k + 1, b, hb, hq.frame.reruns.1 hr, ?_⟩
          exact ((hq.frame.prog p).startable hidx (env (k + 1))).symm.trans hok
        · rintro ⟨k, b, hb, hr, hok⟩
          cases k with
          | zero =>
            cases hb
            exact absurd ⟨hlim, hr, hok⟩ hfirst
          | succ k =>
            refine ⟨k, b, hb, hq.frame.reruns.2 hr, ?_⟩
            exact ((hq.frame.prog p).startable hidx (env (k + 1))).trans hok
      · obtain ⟨hlim, hr, hok⟩ := (hpid₁ hpid).1 hstart
        exact iff_of_true ((restart_doActions h).pid_ne_zero hstart)
          ⟨hlim, 0, a, rfl, hr, hok⟩

theorem checkLimits_fst (w : World) (e : Env) (p : ProgPtr) :
    (w.checkLimits e p).1 = false ↔ ¬(w.prog p).limitReached e.utc := by
  unfold checkLimits Program.limitReached
  simp only [Bool.or_eq_false_iff, decide_eq_false_iff_not]
  tauto

theorem checkLimits_prog (w : World) (e : Env) (p q : ProgPtr) :
    (w.checkLimits e p).2.prog q = w.prog q := by
  unfold checkLimits
  dsimp only
  split_ifs <;> rfl

/-- `what_next` starts an idle program exactly when one of its actions runs it again. -/
theorem whatNext_pid_iff (hpid : (w.prog p).pid = 0) (hstop : (w.prog p).stopMode = 0)
    (h : w.whatNext env res sig p = .ok w') :
    (w'.prog p).pid ≠ 0 ↔ (w.prog p).RunsAgain w.s env res sig p := by
  have hq := w.quiet_incSeqIdx p
  have hpid₁ : ((w.incSeqIdx p).prog p).pid = 0 := (hq.pid p).trans hpid
  have hidle : ∀ {w₁ : World}, (w₁.prog p).pid = 0 → ¬(w.prog p).RunsAgain w.s env res sig p →
      ((w₁.prog p).pid ≠ 0 ↔ (w.prog p).RunsAgain w.s env res sig p) :=
    fun h₁ hno => iff_of_false (not_not.2 h₁) hno
  cases followed_of_whatNext h with
  | stopped hstop' => exact absurd (hstop'.symm.trans hstop) (by decide)
  | next _ _ hmid => exact hidle hpid₁ fun hr => hmid hr.last
  | none _ _ _ hal =>
    refine hidle hpid₁ fun hr => ?_
    obtain ⟨al, hal', -⟩ := hr.action
    rw [hal] at hal'
    cases hal'
  | @actions al w' _ _ hlast hal hdo =>
    have hq₂ := hq.trans (quiet_checkLimits (w.incSeqIdx p) (env 0) p)
    have hprog : (w.incSeqIdx p).prog p = { w.prog p with seqIdx := 0 } := by
      rw [incSeqIdx, modifyProg_prog_self, hlast, Nat.mod_self]
    have hlim : (((w.incSeqIdx p).checkLimits (env 0) p).1 = false ↔
        ¬(w.prog p).limitReached (env 0).utc) := by
      rw [checkLimits_fst, hprog]
      rfl
    rw [doActions_pid_iff ((hq₂.pid p).trans hpid) hdo, checkLimits_prog, hprog, hlim]
    constructor
    · rintro ⟨hno, k, a, ha, hr, hok⟩
      exact ⟨hlast, hno, al, hal, k, a, ha, hq₂.frame.reruns.1 hr, hok⟩
    · rintro ⟨-, hno, al', hal', k, a, ha, hr, hok⟩
      rw [hal] at hal'
      cases hal'
      exact ⟨hno, k, a, ha, hq₂.frame.reruns.2 hr, hok⟩

theorem handleDeath_pid_iff {now : ℤ} {c : Child} (hstop : (w.prog p).stopMode = 0)
    (h : w.handleDeath env now c p = .ok w') :
    (w'.prog p).pid ≠ 0 ↔ c.RunsAgain w.s env now p := by
  obtain ⟨w₂, hw₂, rfl⟩ := handleDeath_eq_ok h
  obtain ⟨w₁, hw₁⟩ : ∃ w₁, w₁ = (w.bury c p now).addDeathEvent now p (c.status.getD 0) := ⟨_, rfl⟩
  rw [← hw₁] at hw₂
  have hf : w.s.Frame w₁.s :=
    hw₁ ▸ (bury_frame w c p now).trans (addDeathEvent_frame ..)
  have hprog : w₁.prog p = { w.prog p with pid := 0, tEnd := now } := by
    have : (w.bury c p now).prog p = { w.prog p with pid := 0, tEnd := now } := by
      simp [bury, setRunning, prog, modifyProg]
    rw [hw₁, ← this]
    unfold addDeathEvent
    split_ifs <;> rfl
  have hiff := whatNext_pid_iff (by rw [hprog]) (by rw [hprog]; exact hstop) hw₂
  rw [show (w₂.incChanged.prog p).pid = (w₂.prog p).pid from rfl, hiff, hprog, hf.runsAgain]
  rfl

end World

/-! ## When a step starts a program -/

namespace Thread

variable {t t' : Thread} {os os' : OS} {env : ℕ → Env}

/-- The thread comes to start a program: its first pass is at a due start unit of an idle program
that can start, or its reaper gets a child whose death makes its program run again. -/
inductive Starts (env : ℕ → Env) (t : Thread) (os : OS) : Prop
  | unit {p : ProgPtr} (hat : t.AtStart p) (hpid : (t.s.prog p).pid = 0)
      (hok : (env 0).startable (t.s.prog p))
  | death {now : ℤ} {pri : ℕ} {pid : ℤ} {c : Child} {p : ProgPtr} (hpc : t.pc = .poll now pri pid)
      (hreap : t.reaps (env 0) os = some c) (hp : t.s.running c.pid = some p)
      (hagain : c.RunsAgain t.s (fun i => env (i + 1)) now p)

/-- A program whose child is reaped runs after the step when the death makes it run again. -/
theorem pid_of_reaps {c : Child} {p : ProgPtr} (hstop : (t.s.prog p).stopMode = 0)
    (hreap : t.reaps (env 0) os = some c) (hp : t.s.running c.pid = some p)
    (h : t.step env os = .ok (t', os')) : (t'.s.prog p).pid ≠ 0 ↔ t.Starts env os := by
  rcases death_or_bury hreap hp h with ⟨now, pri, pid, hpc, hw⟩ | ⟨hloop, hw⟩
  · have hiff : (t'.s.prog p).pid ≠ 0 ↔ c.RunsAgain t.s (fun i => env (i + 1)) now p := by
      refine World.handleDeath_pid_iff ?_ hw
      exact hstop
    refine hiff.trans ⟨fun hagain => .death hpc hreap hp hagain, ?_⟩
    rintro (⟨hat, -, -⟩ | ⟨hpoll, hreap', hp'', hagain⟩)
    · exact absurd (hat.reaps.symm.trans hreap) (by simp)
    · cases hpc.symm.trans hpoll
      cases hreap.symm.trans hreap'
      cases hp.symm.trans hp''
      exact hagain
  · -- outside the main loop the program stays idle
    have hpid : (t'.s.prog p).pid = 0 := by
      rw [show t'.s = _ from congrArg World.s hw]
      simp [World.bury, World.setRunning, World.modifyProg]
    refine iff_of_false (not_not.2 hpid) ?_
    rintro (⟨hat, -, -⟩ | ⟨hpoll, -, -, -⟩)
    · exact absurd (hat.reaps.symm.trans hreap) (by simp)
    · simp [inLoop, hpoll] at hloop

end Thread

/-! ## Starts in the books -/

/-- `fork` by scheduler `i`. -/
def Obs.forkedBy (i : ℕ) : Obs → Bool
  | .fork j _ _ _ => j = i
  | _ => false

/-- How many processes scheduler `i` has started. -/
def OS.starts (os : OS) (i : ℕ) : ℕ := os.trace.countP (Obs.forkedBy i)

def Entry.forkedBy (i : ℕ) : Entry → Bool
  | .fork k _ _ => k.1 = i
  | _ => false

theorem step_starts {e : Entry} {b b' : Books} (h : supervisor.step e b = .ok b') (i : ℕ) :
    b'.os.starts i = b.os.starts i + if e.forkedBy i then 1 else 0 := by
  rw [OS.starts, step_trace h, List.countP_append, OS.starts]
  cases e <;> simp [Entry.obs, Entry.forkedBy, Obs.forkedBy, List.countP_cons]

theorem exec_starts {es : List Entry} {b b' : Books} (h : supervisor.exec es b = .ok b') (i : ℕ) :
    b'.os.starts i = b.os.starts i + es.countP (Entry.forkedBy i) := by
  induction es generalizing b with
  | nil => cases h; simp
  | cons e es ih =>
    obtain ⟨b₁, hb₁, h⟩ := Transition.System.exec_cons_eq_ok.1 h
    rw [ih h, step_starts hb₁, List.countP_cons]
    omega

namespace Thread

variable {t t' : Thread} {os os' : OS} {env : ℕ → Env} {i : ℕ}

theorem AtStart.eq {p q : ProgPtr} (hp : t.AtStart p) (hq : t.AtStart q) : p = q := by
  obtain ⟨now, wui, wu, hpc, hwu, -, -, hp⟩ := hp
  obtain ⟨now', wui', wu', hpc', hwu', -, -, hq⟩ := hq
  cases hpc.symm.trans hpc'
  cases hwu.symm.trans hwu'
  exact Option.some.inj (hp.symm.trans hq)

/-- The entries of a step have a fork when the thread comes to start a program. -/
theorem Shape.starts_iff {es : List Entry} {b b' : Books} (hs : t.Shape i (env 0) os es)
    (hstop : ∀ p, (t.s.prog p).stopMode = 0) (hstep : t.step env os = .ok (t', os'))
    (hexec : supervisor.exec es b = .ok b') (hrunning : b.running i = t.s.running)
    (hslot : ∀ p, b'.slot (i, p) = (t'.s.prog p).pid) :
    es.countP (Entry.forkedBy i) ≠ 0 ↔ t.Starts env os := by
  have hcalm : t.Calm (env 0) os → ¬t.Starts env os := by
    rintro hc (⟨hat, -, -⟩ | ⟨-, hreap, -, -⟩)
    · exact hc.start _ hat
    · exact absurd (hc.reaps.symm.trans hreap) (by simp)
  cases hs with
  | quiet hc => exact iff_of_false (by simp) (hcalm hc)
  | signal hc => exact iff_of_false (by simp [Entry.forkedBy]) (hcalm hc)
  | expire hc => exact iff_of_false (by simp [Entry.forkedBy]) (hcalm hc)
  | start hat hpid hok => exact iff_of_true (by simp [Entry.forkedBy]) (.unit hat hpid hok)
  | refused hat hno =>
    refine iff_of_false (by simp [Entry.forkedBy]) ?_
    rintro (⟨hat', hpid, hok⟩ | ⟨-, hreap, -, -⟩)
    · cases hat.eq hat'
      exact hno ⟨hpid, hok⟩
    · exact absurd (hat.reaps.symm.trans hreap) (by simp)
  | stray hreap =>
    obtain ⟨b₁, hlose, -⟩ := Transition.System.exec_cons_eq_ok.1 hexec
    have hnone := (step_lose.1 hlose).1.2
    refine iff_of_false (by simp [Entry.forkedBy]) ?_
    rintro (⟨hat, -, -⟩ | ⟨-, hreap', hp, -⟩)
    · exact absurd (hat.reaps.symm.trans hreap) (by simp)
    · cases hreap.symm.trans hreap'
      rw [hrunning] at hnone
      exact absurd (hnone.symm.trans hp) (by simp)
  | @death c p ev hreap =>
    obtain ⟨b₁, hbury, hnil⟩ := Transition.System.exec_cons_eq_ok.1 hexec
    obtain ⟨⟨-, hp, -⟩, rfl⟩ := step_bury.1 hbury
    cases hnil
    rw [hrunning] at hp
    have hpid : (t'.s.prog p).pid = 0 := by
      rw [← hslot p]
      exact Function.update_self ..
    refine iff_of_false (by simp [Entry.forkedBy]) ?_
    exact mt (pid_of_reaps (hstop p) hreap hp hstep).2 (not_not.2 hpid)
  | @restart c p ev hint now hreap =>
    obtain ⟨b₁, hbury, hexec⟩ := Transition.System.exec_cons_eq_ok.1 hexec
    obtain ⟨b₂, hfork, hnil⟩ := Transition.System.exec_cons_eq_ok.1 hexec
    obtain ⟨⟨-, hp, -⟩, -⟩ := step_bury.1 hbury
    obtain ⟨-, rfl⟩ := step_fork.1 hfork
    cases hnil
    rw [hrunning] at hp
    have hpid : (t'.s.prog p).pid ≠ 0 := by
      rw [← hslot p, show (b₁.fork (i, p) hint now).slot (i, p) = b₁.os.freshPid hint from
        Function.update_self ..]
      exact (b₁.os.freshPid_pos hint).ne'
    exact iff_of_true (by simp [Entry.forkedBy]) ((pid_of_reaps (hstop p) hreap hp hstep).1 hpid)

end Thread

/-! ## Runs -/

/-- The scheduler has handled a `WT_EXIT` unit. -/
def Scheduler.exited (s : Scheduler) : Prop := ∃ h ∈ s.schedule.handled, h.1.wType = .exit

theorem Thread.Turn.handled {e : Env} {os : OS} {t t' : Thread} (h : t.Turn e os t') :
    t.s.schedule.handled <+: t'.s.schedule.handled := by
  cases h with
  | enter _ _ _ hs => rw [hs]
  | skip _ _ _ _ _ hs => rw [hs]
  | mark _ _ _ _ hs =>
    rw [hs.2.2]
    exact List.prefix_append ..
  | queue _ _ _ _ hs =>
    rw [hs.2.2]
    exact List.prefix_append ..
  | erase _ _ _ _ hs => rw [hs]
  | grow _ _ _ hs => rw [hs.appended.2.1]

namespace Process

variable {σ₀ σ σ' : Process} {l : Label}

/-- Handled units stay handled. -/
theorem exited_of_step (h : machine.step l σ = .ok σ') (i : ℕ) (hexit : (σ.thread i).s.exited) :
    (σ'.thread i).s.exited := by
  obtain ⟨wu, hwu, hty⟩ := hexit
  refine ⟨wu, ?_, hty⟩
  rcases thread_of_step h i with ⟨env, t, os, -, -, hstep, rfl, -⟩ | ⟨-, s, hs, he⟩
  · exact (Thread.step_turn hstep).handled.subset hwu
  · rw [he]
    cases hs <;> exact hwu

/-- The number of starts of scheduler `i` changes in its steps that come to start a program. -/
theorem Regular.starts_iff (hσ : σ.Regular) (h : machine.step l σ = .ok σ') (i : ℕ) :
    σ'.os.starts i = σ.os.starts i ↔
      ∀ env, l = .thread i env → i < σ.count → ¬(σ.thread i).Starts env σ.os := by
  obtain ⟨-, es, hes, hexec⟩ := step_entries hσ.self h
  rw [show σ'.os.starts i = σ.os.starts i + es.countP (Entry.forkedBy i) from exec_starts hexec i,
    Nat.add_eq_left]
  rcases thread_of_step h i with ⟨env, t, os, rfl, hi, hstep, rfl, -⟩ | ⟨hl, -⟩
  · cases hes with
    | quiet hl => exact absurd (hl i env rfl) (by omega)
    | thread _ hs =>
      have hiff := hs.starts_iff (hσ.stopMode i hi) hstep hexec rfl fun _ => rfl
      constructor
      · rintro h0 env' he -
        cases he
        exact mt hiff.2 (not_not.2 h0)
      · exact fun hno => not_not.1 (mt hiff.1 (hno env rfl hi))
  · refine iff_of_true ?_ fun env he hi => absurd (hl env he) (by omega)
    cases hes with
    | dies => rfl
    | leaves => rfl
    | quiet => rfl
    | @thread j env es hj hs =>
      have hij : j ≠ i := by
        rintro rfl
        exact absurd (hl env rfl) (by omega)
      cases hs <;> simp [Entry.forkedBy, hij]

/-- A scheduler that has handled a `WT_EXIT` unit comes to start a program all the same. -/
def StartsLate (σ : Process) (l : Label) : Prop :=
  ∃ i env, l = .thread i env ∧ i < σ.count ∧ (σ.thread i).s.exited ∧
    (σ.thread i).Starts env σ.os

/-- Once a scheduler has handled a `WT_EXIT` unit, it starts no process any more. -/
def NoStartAfterExit (ls : List Label) (σ₀ : Process) : Prop :=
  ∀ pre post, pre ++ post <+: ls → ∀ σ σ', machine.exec pre σ₀ = .ok σ →
    machine.exec post σ = .ok σ' → ∀ i, (σ.thread i).s.exited → σ'.os.starts i = σ.os.starts i

/-- Nothing starts after an exit unit in exactly the runs in which no scheduler comes, behind it in
the same pass, to a start unit or to a death that starts a program. -/
theorem no_start_after_exit_iff (h₀ : σ₀.Initial) (ls : List Label) :
    NoStartAfterExit ls σ₀ ↔ machine.Along (fun σ l _ => ¬σ.StartsLate l) ls σ₀ := by
  have hfrozen : NoStartAfterExit ls σ₀ ↔ machine.Along (fun σ _ σ' => ∀ i,
      (σ.thread i).s.exited → σ'.os.starts i = σ.os.starts i) ls σ₀ :=
    (Transition.System.along_iff_frozen fun i _ _ _ h => exited_of_step h i).symm
  refine hfrozen.trans ?_
  refine Transition.System.along_iff_of_invariant (fun l σ σ' hσ h => ?_)
    (fun l σ σ' hσ h _ => hσ.step h) h₀.regular
  constructor
  · rintro hsame ⟨i, env, rfl, hi, hexit, hstarts⟩
    exact (hσ.starts_iff h i).1 (hsame i hexit) env rfl hi hstarts
  · intro hnone i hexit
    refine (hσ.starts_iff h i).2 fun env hl hi hstarts => ?_
    exact hnone ⟨i, env, hl, hi, hexit, hstarts⟩

/-- The program is started, `<quit />` comes, its exit unit is handled, and the process dies and is
reaped before the thread returns. -/
def quitInTime : List Label :=
  List.replicate 2 (.thread 0 fun _ => {}) ++ [.quit 0 0] ++
    List.replicate 11 (.thread 0 fun _ => {}) ++ [.dies 1 15] ++
    List.replicate 3 (.thread 0 fun _ => {})

/-- The only scheduler starts nothing in the step if it has handled a `WT_EXIT` unit. -/
def StartsNothing (σ : Process) (_ : Label) (σ' : Process) : Prop :=
  σ.count = 1 ∧ ((σ.thread 0).s.schedule.handled.any (fun h => h.1.wType = .exit) →
    σ'.os.starts 0 = σ.os.starts 0)

instance (σ : Process) (l : Label) (σ' : Process) : Decidable (σ.StartsNothing l σ') :=
  inferInstanceAs (Decidable (_ ∧ _))

theorem StartsNothing.not_startsLate (h : σ.StartsNothing l σ') (hσ : σ.Regular)
    (hstep : machine.step l σ = .ok σ') : ¬σ.StartsLate l := by
  obtain ⟨hcount, hsame⟩ := h
  rintro ⟨i, env, rfl, hi, hexit, hstarts⟩
  obtain rfl : i = 0 := by omega
  have hsame := hsame (by simpa [Scheduler.exited] using hexit)
  exact (hσ.starts_iff hstep 0).1 hsame env rfl hi hstarts

theorem no_start_after_exit_iff_sleeper :
    (∃ σ, machine.exec quitInTime (.configured [.sleeper]) = .ok σ ∧
      (σ.thread 0).s.schedule.handled.map (fun h => h.1.wType) = [.runProg, .exit] ∧
      (σ.thread 0).pc = .returned) ∧
    NoStartAfterExit quitInTime (.configured [.sleeper]) := by
  have hnone : machine.Along StartsNothing quitInTime (.configured [.sleeper]) := by decide
  refine ⟨⟨_, rfl, by decide, rfl⟩, (no_start_after_exit_iff sleeper_initial quitInTime).2 ?_⟩
  exact hnone.imp_of_invariant (fun _ _ _ hσ hl h => h.not_startsLate hσ hl)
    (fun _ _ _ hσ hl _ => hσ.step hl) sleeper_initial.regular

/-- A program that the configuration does not start. -/
def dormant : SchedulerConfig where
  programs := [{ name := str "sleeper", seq := [str "/bin/sleep 10"] }]

/-- `<quit />` and then `<start name="sleeper" />`, up to the exit unit. -/
def quitThenStart : List Label :=
  [.quit 0 0, .start 0 (str "sleeper") 0] ++ List.replicate 2 (.thread 0 fun _ => {})

theorem no_start_after_exit_fails : ¬∀ (σ₀ : Process) (ls : List Label), σ₀.Initial →
    NoStartAfterExit ls σ₀ := by
  intro h
  have hinit : (Process.configured [dormant]).Initial :=
    configured_initial (List.forall_mem_singleton.2 ⟨by simp [dormant], by simp [dormant]⟩)
  obtain ⟨σ, σ', hσ, hstep, hexit, hstarts⟩ : ∃ σ σ',
      machine.exec quitThenStart (.configured [dormant]) = .ok σ ∧
      machine.exec [.thread 0 fun _ => {}] σ = .ok σ' ∧ (σ.thread 0).s.exited ∧
      σ'.os.starts 0 ≠ σ.os.starts 0 :=
    ⟨_, _, rfl, rfl, ⟨_, List.mem_cons_self, rfl⟩, by decide⟩
  exact hstarts (h _ (quitThenStart ++ [.thread 0 fun _ => {}]) hinit quitThenStart _
    List.prefix_rfl σ σ' hσ hstep 0 hexit)

end Process

end Peter
