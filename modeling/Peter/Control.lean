import Peter.Queue

/-!
# Mode and status

The two fields of a scheduler that say how far it is.  `what_next` and all it calls leave them
alone; a step of the thread turns the scheduler off where the first pass takes up a `WT_EXIT` unit,
and moves its status on at three places of the shutdown (`Thread.control_of_step`).  The mode is
never turned on again.
-/

namespace Peter

/-! ## The calls -/

namespace World

/-- Mode and status are the same. -/
structure Steady (w w' : World) : Prop where
  mode : w'.s.mode = w.s.mode
  status : w'.s.status = w.s.status

namespace Steady

theorem refl (w : World) : w.Steady w := ⟨rfl, rfl⟩

theorem trans {w w' w'' : World} (h : w.Steady w') (h' : w'.Steady w'') : w.Steady w'' :=
  ⟨h'.mode.trans h.mode, h'.status.trans h.status⟩

end Steady

variable {w w' : World} {p : ProgPtr} {e : Env} {env : ℕ → Env} {res sig : ℤ}

theorem steady_run (h : w.run e p = .ok w') : w.Steady w' := by
  cases ran_of_run h <;> exact ⟨rfl, rfl⟩

theorem steady_doAction {limitReached : Bool} {a : Action}
    (h : w.doAction e p res sig limitReached a = .ok w') : w.Steady w' := by
  cases acted_of_doAction h with
  | direct _ _ _ _ hrun =>
    obtain ⟨hmode, hstatus⟩ := steady_run hrun
    exact ⟨hmode, hstatus⟩
  | queued => exact ⟨rfl, rfl⟩
  | passed => exact ⟨rfl, rfl⟩

theorem steady_doActions {limitReached : Bool} {al : List Action}
    (h : w.doActions p res sig limitReached al env = .ok w') : w.Steady w' := by
  induction al generalizing env w with
  | nil =>
    cases h
    exact .refl _
  | cons a al ih =>
    rw [doActions] at h
    split at h
    · next w₁ hw₁ => exact (steady_doAction hw₁).trans (ih h)
    · cases h

theorem steady_checkLimits (w : World) (e : Env) (p : ProgPtr) :
    w.Steady (w.checkLimits e p).2 := by
  unfold checkLimits
  dsimp only
  split_ifs <;> exact ⟨rfl, rfl⟩

theorem steady_whatNext (h : w.whatNext env res sig p = .ok w') : w.Steady w' := by
  cases followed_of_whatNext h with
  | stopped => exact ⟨rfl, rfl⟩
  | next => exact ⟨rfl, rfl⟩
  | none => exact ⟨rfl, rfl⟩
  | actions _ _ _ _ hdo =>
    have hlimits := (w.incSeqIdx p).steady_checkLimits (env 0) p
    obtain ⟨hmode, hstatus⟩ := hlimits.trans (steady_doActions hdo)
    exact ⟨hmode, hstatus⟩

theorem steady_handleDeath {now : ℤ} {c : Child} (h : w.handleDeath env now c p = .ok w') :
    w.Steady w' := by
  obtain ⟨w₂, hnext, rfl⟩ := handleDeath_eq_ok h
  have hlogged : w.Steady ((w.bury c p now).addDeathEvent now p (c.status.getD 0)) := by
    unfold addDeathEvent
    split_ifs <;> exact ⟨rfl, rfl⟩
  obtain ⟨hmode, hstatus⟩ := hlogged.trans (steady_whatNext hnext)
  exact ⟨hmode, hstatus⟩

theorem steady_sendSignal (w : World) (e : Env) (p : ProgPtr) (sig : ℤ) (cause : Cause) :
    w.Steady (w.sendSignal e p sig cause).2 := by
  unfold sendSignal
  split_ifs <;> exact ⟨rfl, rfl⟩

theorem steady_handleLimit (w : World) (e : Env) (now : ℤ) (p : ProgPtr) :
    w.Steady (w.handleLimit e now p) := by
  unfold handleLimit
  dsimp only
  split_ifs
  · obtain ⟨hmode, hstatus⟩ := w.steady_sendSignal e p (w.prog p).stopSig .limit
    exact ⟨hmode, hstatus⟩
  · exact .refl w

/-- The first pass turns the scheduler off for a `WT_EXIT` unit. -/
theorem control_of_handleUnit {now : ℤ} {pos : ℕ} {wu : WorkUnit}
    (h : handleUnit e now pos wu w = .ok w') :
    w'.s.status = w.s.status ∧
      w'.s.mode = if wu.wType = .exit then .off else w.s.mode := by
  cases handles_of_handleUnit h with
  | later hnot =>
    have hty : wu.wType ≠ .exit := by
      intro hty
      apply hnot
      simp only [WorkUnit.Due, hty]
    exact ⟨rfl, (if_neg hty).symm⟩
  | exit hty => exact ⟨rfl, (if_pos hty).symm⟩
  | run hty hdue hp hrun =>
    obtain ⟨hmode, hstatus⟩ := steady_run hrun
    rw [if_neg (by simp [hty])]
    exact ⟨hstatus, hmode⟩
  | @stop p w₁ hty hdue hp hw =>
    obtain ⟨hmode, hstatus⟩ := w₁.steady_sendSignal e p (w₁.prog p).stopSig .endProg
    rw [if_neg (by simp [hty])]
    subst hw
    exact ⟨hstatus, hmode⟩
  | nostart hty =>
    rw [if_neg (by simp [hty])]
    exact ⟨rfl, rfl⟩

end World

/-! ## The thread -/

namespace Thread

variable {t t' : Thread} {os os' : OS} {env : ℕ → Env}

/-- What a step of the thread does to mode and status. -/
inductive Control (t t' : Thread) : Prop
  | steady (hmode : t'.s.mode = t.s.mode) (hstatus : t'.s.status = t.s.status)
      (hpc : t'.inLoop = t.inLoop ∨ t'.pc = .returned)
  | exit {now : ℤ} {wui : Iter} {wu : WorkUnit} (hpc : t.pc = .firstPass now wui)
      (hwu : t.s.schedule.units[wui.pos]? = some wu) (hty : wu.wType = .exit)
      (hmode : t'.s.mode = .off) (hstatus : t'.s.status = t.s.status)
      (hloop : t'.inLoop = t.inLoop)
  | ending (hpc : t.pc = .loop) (hoff : t.s.mode = .off) (hpc' : t'.pc = .ending 0 0)
      (hmode : t'.s.mode = t.s.mode) (hstatus : t'.s.status = .ending)
  | waiting (hloop : t.inLoop = false) (hloop' : t'.inLoop = false) (hpc : t.pc ≠ .returned)
      (hpc' : t'.pc ≠ .returned) (hmode : t'.s.mode = t.s.mode) (hstatus : t'.s.status = .waiting)
  | ready (hfin : t.finishing) (hpc' : t'.pc = .returned) (hmode : t'.s.mode = t.s.mode)
      (hstatus : t'.s.status = .ready)

theorem Jump.inLoop {pc : Pc} (h : t.Jump pc) : Thread.inLoop { t with pc } = t.inLoop := by
  cases h <;> simp [Thread.inLoop, *]

theorem Waits.inLoop_next {child zero echild pc : Pc} {s : Scheduler}
    (h : t.Waits child zero echild) (hpc : pc = child ∨ pc = zero ∨ pc = echild) :
    Thread.inLoop { t with s, pc } = t.inLoop := by
  rw [h.inLoop]
  rcases hpc with rfl | rfl | rfl <;> cases h <;> rfl

theorem control_of_step (h : t.step env os = .ok (t', os')) : t.Control t' := by
  obtain ⟨pc, w, hm, rfl, rfl⟩ := step_moves h
  cases hm with
  | jump hj => exact .steady rfl rfl (.inl hj.inLoop)
  | leave hpc hoff => exact .ending hpc hoff rfl rfl rfl
  | enter hpc => exact .steady rfl rfl (.inl (by simp [inLoop, hpc]))
  | @unit now wui wu w hpc hwu hw =>
    obtain ⟨hstatus, hmode⟩ := World.control_of_handleUnit hw
    have hloop : Thread.inLoop
        { t with s := w.s, pc := .firstPass now { wui with pos := wui.pos + 1 } } = t.inLoop := by
      simp [inLoop, hpc]
    by_cases hty : wu.wType = .exit
    · rw [if_pos hty] at hmode
      exact .exit hpc hwu hty hmode hstatus hloop
    · rw [if_neg hty] at hmode
      exact .steady hmode hstatus (.inl hloop)
  | erase hpc => exact .steady rfl rfl (.inl (by simp [inLoop, hpc]))
  | @limit now pri p hpc hp =>
    obtain ⟨hmode, hstatus⟩ := World.steady_handleLimit ⟨t.s, os⟩ (env 0) now p
    exact .steady hmode hstatus (.inl (by simp [inLoop, hpc]))
  | death hpc hreap hp hw =>
    obtain ⟨hmode, hstatus⟩ := World.steady_handleDeath hw
    exact .steady hmode hstatus (.inl (by simp [inLoop, hpc]))
  | alive hpc => exact .steady rfl rfl (.inl (by simp [inLoop, hpc]))
  | stray => exact .steady rfl rfl (.inr rfl)
  | bury hwait => exact .steady rfl rfl (.inl (hwait.inLoop_next (.inl rfl)))
  | nobody hwait hreap hpc => exact .steady rfl rfl (.inl (hwait.inLoop_next (.inr hpc)))
  | @stop pi pCount p hpc hp hpid =>
    obtain ⟨hmode, hstatus⟩ :=
      World.steady_sendSignal ⟨t.s, os⟩ (env 0) p (t.s.prog p).stopSig .ending
    exact .steady hmode hstatus (.inl (by simp [inLoop, hpc]))
  | stopped hpc =>
    exact .waiting (by simp [inLoop, hpc]) rfl (by simp [hpc]) (fun he => by cases he) rfl rfl
  | @kill pi pCount p hpc hp hpid =>
    obtain ⟨hmode, hstatus⟩ := World.steady_sendSignal ⟨t.s, os⟩ (env 0) p 9 .sigkill
    exact .steady hmode hstatus (.inl (by simp [inLoop, hpc]))
  | finish hfin => exact .ready hfin rfl rfl rfl

/-- A scheduler that is off stays off. -/
theorem mode_of_step (h : t.step env os = .ok (t', os')) (hoff : t.s.mode = .off) :
    t'.s.mode = .off := by
  cases control_of_step h with
  | steady hmode => exact hmode.trans hoff
  | exit _ _ _ hmode => exact hmode
  | ending _ _ _ hmode => exact hmode.trans hoff
  | waiting _ _ _ _ hmode => exact hmode.trans hoff
  | ready _ _ hmode => exact hmode.trans hoff

/-- A thread that has returned stays there. -/
theorem returned_of_step (h : t.step env os = .ok (t', os')) (hpc : t.pc = .returned) :
    t' = t ∧ os' = os := by
  unfold step at h
  rw [hpc] at h
  cases h
  obtain ⟨s, pc, now⟩ := t
  cases hpc
  exact ⟨rfl, rfl⟩

end Thread

/-! ## The process -/

namespace Process

variable {σ σ' : Process} {l : Label} {i : ℕ}

/-- A command leaves the status alone, and does not turn a scheduler on. -/
theorem control_of_command {queues : Prop} {s s' : Scheduler} (h : s.Command queues s') :
    s'.status = s.status ∧ (s'.mode = s.mode ∨ s'.mode = .off) := by
  cases h with
  | none => exact ⟨rfl, .inl rfl⟩
  | unit => exact ⟨rfl, .inl rfl⟩
  | off => exact ⟨rfl, .inr rfl⟩

theorem mode_of_step (h : machine.step l σ = .ok σ') (hoff : (σ.thread i).s.mode = .off) :
    (σ'.thread i).s.mode = .off := by
  rcases thread_of_step h i with ⟨env, t, os, -, -, hstep, rfl, -⟩ | ⟨-, s, hs, hthread⟩
  · exact Thread.mode_of_step hstep hoff
  · rw [hthread]
    rcases (control_of_command hs).2 with hmode | hmode
    · exact hmode.trans hoff
    · exact hmode

/-- A thread that has returned leaves its status as it is. -/
theorem status_of_returned (h : machine.step l σ = .ok σ') (hpc : (σ.thread i).pc = .returned) :
    (σ'.thread i).s.status = (σ.thread i).s.status := by
  rcases thread_of_step h i with ⟨env, t, os, -, -, hstep, rfl, -⟩ | ⟨-, s, hs, hthread⟩
  · obtain ⟨ht, -⟩ := Thread.returned_of_step hstep hpc
    rw [ht]
  · rw [hthread]
    exact (control_of_command hs).1

/-- A thread that is ready has returned. -/
theorem ready_of_step (h : machine.step l σ = .ok σ')
    (hready : (σ.thread i).s.status = .ready → (σ.thread i).pc = .returned)
    (hready' : (σ'.thread i).s.status = .ready) : (σ'.thread i).pc = .returned := by
  rcases thread_of_step h i with ⟨env, t, os, -, -, hstep, rfl, -⟩ | ⟨-, s, hs, hthread⟩
  · cases Thread.control_of_step hstep with
    | steady _ hstatus =>
      have hpc := hready (hstatus.symm.trans hready')
      obtain ⟨ht, -⟩ := Thread.returned_of_step hstep hpc
      rw [ht]
      exact hpc
    | exit hpc _ _ _ hstatus =>
      have hpc' := hready (hstatus.symm.trans hready')
      simp [hpc] at hpc'
    | ending _ _ _ _ hstatus => simp [hstatus] at hready'
    | waiting _ _ _ _ _ hstatus => simp [hstatus] at hready'
    | ready _ hpc' => exact hpc'
  · rw [hthread] at hready' ⊢
    exact hready ((control_of_command hs).1.symm.trans hready')

end Process

end Peter
