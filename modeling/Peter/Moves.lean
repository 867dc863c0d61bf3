import Peter.Refine

/-!
# What a step of a scheduler thread can do

`Thread.Moves` lists the ways a step can go: under which conditions, where the thread is after it,
and what it has done.  `Thread.step_moves` takes the step function apart; what the steps of a thread
preserve is proved from the list.
-/

namespace Peter

/-- The pass at `now` takes the unit up. -/
def WorkUnit.Due (now : ℤ) (wu : WorkUnit) : Prop := match wu.wType with
  | .exit => True
  | .nostart => True
  | .runProg => wu.delta now ≤ 0
  | .endProg => wu.delta now ≤ 0
  | .notinit => False
  | .waitPid => False

/-- A start or stop unit. -/
def WorkUnit.timed (wu : WorkUnit) : Prop := wu.wType = .runProg ∨ wu.wType = .endProg

theorem WorkUnit.due_iff_of_timed {wu : WorkUnit} {now : ℤ} (h : wu.timed) :
    wu.Due now ↔ wu.delta now ≤ 0 := by
  rcases h with h | h <;> simp [Due, h]

theorem WorkUnit.delta_self (wu : WorkUnit) : wu.delta wu.tAt = 0 := by simp [delta, toLong]

/-- Between two 64-bit times the difference is right exactly when it fits. -/
theorem WorkUnit.delta_right_iff {wu : WorkUnit} {now : ℤ}
    (hat : -9223372036854775808 ≤ wu.tAt ∧ wu.tAt ≤ 9223372036854775807)
    (hnow : -9223372036854775808 ≤ now ∧ now ≤ 9223372036854775807) :
    (wu.delta now ≤ 0 ↔ wu.tAt ≤ now) ↔
      -9223372036854775808 ≤ wu.tAt - now ∧ wu.tAt - now ≤ 9223372036854775807 := by
  unfold delta toLong Int.bmod
  dsimp only
  split <;> omega

namespace World

/-- What the first pass does with a unit. -/
inductive Handles (e : Env) (now : ℤ) (pos : ℕ) (wu : WorkUnit) (w : World) : World → Prop
  | later (hnot : ¬wu.Due now) : Handles e now pos wu w w
  | exit (hty : wu.wType = .exit) : Handles e now pos wu w ((w.markUsed pos wu now).setMode .off)
  | run {p : ProgPtr} {w₁ : World} (hty : wu.wType = .runProg) (hdue : wu.delta now ≤ 0)
      (hp : wu.program = some p) (hrun : w.run e p = .ok w₁) : Handles e now pos wu w
        ((w₁.markUsed pos wu now).setRunning ((w₁.markUsed pos wu now).prog p).pid (some p))
  | stop {p : ProgPtr} {w₁ : World} (hty : wu.wType = .endProg) (hdue : wu.delta now ≤ 0)
      (hp : wu.program = some p)
      (hw : w₁ = (w.modifyProg p fun prog => { prog with stopMode := 0 }).addEvent now .stop p
        (-1)) : Handles e now pos wu w
        ((w₁.sendSignal e p (w₁.prog p).stopSig .endProg).2.markUsed pos wu now)
  | nostart (hty : wu.wType = .nostart) : Handles e now pos wu w (w.markUsed pos wu now)

theorem handles_of_handleUnit {e : Env} {now : ℤ} {pos : ℕ} {wu : WorkUnit} {w w' : World}
    (h : handleUnit e now pos wu w = .ok w') : w.Handles e now pos wu w' := by
  unfold handleUnit at h
  cases hty : wu.wType <;> simp only [hty] at h
  case exit => cases h; exact .exit hty
  case runProg =>
    split_ifs at h with hdue
    · cases hp : wu.program with
      | none => rw [hp] at h; cases h
      | some p =>
        simp only [hp] at h
        cases hrun : w.run e p with
        | error => rw [hrun] at h; cases h
        | ok w₁ =>
          rw [hrun] at h
          cases h
          exact .run hty hdue hp hrun
    · cases h
      exact .later (by simp only [WorkUnit.Due, hty]; omega)
  case endProg =>
    split_ifs at h with hdue
    · cases hp : wu.program with
      | none => rw [hp] at h; cases h
      | some p =>
        rw [hp] at h
        cases h
        exact .stop hty hdue hp rfl
    · cases h
      exact .later (by simp only [WorkUnit.Due, hty]; omega)
  case nostart =>
    cases hp : wu.program with
    | none => rw [hp] at h; cases h
    | some p => rw [hp] at h; cases h; exact .nostart hty
  case notinit => cases h; exact .later (by simp [WorkUnit.Due, hty])
  case waitPid => cases h; exact .later (by simp [WorkUnit.Due, hty])

/-- The reaper takes the child away, logs its death, and `what_next` follows. -/
theorem handleDeath_eq_ok {env : ℕ → Env} {now : ℤ} {c : Child} {p : ProgPtr} {w w' : World}
    (h : handleDeath env now c p w = .ok w') :
    ∃ w₂, ((w.bury c p now).addDeathEvent now p (c.status.getD 0)).whatNext env
      (wexitstatus (c.status.getD 0))
      ((if wifsignaled (c.status.getD 0) then wtermsig (c.status.getD 0) else 0 : ℕ) : ℤ) p =
        .ok w₂ ∧ w' = w₂.incChanged := by
  unfold handleDeath at h
  dsimp only at h
  split at h
  · cases h
  · next w₂ hnext =>
    cases h
    exact ⟨w₂, hnext, rfl⟩

/-- What `waitpid` does, with the program found for the child it returns. -/
theorem wait_cases (w : World) (e : Env) (pid : ℤ) :
    (∃ c p, (w.os.waitpid pid e.pick).1.child? = some c ∧ w.s.running c.pid = some p ∧
      w.wait e pid =
        (.child c, some p, { w with os := w.os.reap w.s.self c (some p) (w.prog p).pid })) ∨
    (∃ c, (w.os.waitpid pid e.pick).1.child? = some c ∧ w.s.running c.pid = none ∧
      w.wait e pid = (.child c, none, { w with os := w.os.reap w.s.self c none 0 })) ∨
    ((w.os.waitpid pid e.pick).1.child? = none ∧
      (w.wait e pid = (.zero, none, w) ∨ w.wait e pid = (.echild, none, w))) := by
  unfold wait
  rcases w.os.waitpid_cases pid e.pick with ⟨c, he⟩ | he | he
  · rw [he]
    cases hp : w.s.running c.pid with
    | some p => exact .inl ⟨c, p, rfl, hp, by simp [OS.reap, OS.observe, hp]⟩
    | none => exact .inr (.inl ⟨c, rfl, hp, by simp [OS.reap, OS.observe, hp]⟩)
  · rw [he]
    exact .inr (.inr ⟨rfl, .inl rfl⟩)
  · rw [he]
    exact .inr (.inr ⟨rfl, .inr rfl⟩)

end World

namespace Thread

/-- The argument of the `waitpid` the thread is about to call. -/
def waitsFor (t : Thread) : Option ℤ := match t.pc with
  | .poll _ _ pid => some pid
  | .waitFor _ _ _ pri => (t.s.programs[pri]?).map fun p => (t.s.prog p).pid
  | .reaping tries _ kCount => if tries > 0 ∧ kCount > 0 then some 0 else none
  | _ => none

/-- The thread is in `while ( s->mode != Scheduler::SCHED_OFF )`. -/
def inLoop (t : Thread) : Bool := match t.pc with
  | .loop => true
  | .firstPass _ _ => true
  | .limits _ _ => true
  | .deaths _ _ => true
  | .poll _ _ _ => true
  | _ => false

/-- The child that `waitpid` is about to return to the thread. -/
def reaps (t : Thread) (e : Env) (os : OS) : Option Child :=
  t.waitsFor.bind fun pid => (os.waitpid pid e.pick).1.child?

/-- The thread is about to set `STATUS_READY`. -/
def finishing (t : Thread) : Bool := match t.pc with
  | .waiting tries pCount kCount => ¬(tries > 0 ∧ kCount > 0) ∧ ¬pCount > 0
  | .reaping tries _ kCount => ¬(tries > 0 ∧ kCount > 0)
  | _ => false

/-- The thread goes on at `pc` and does nothing else. -/
inductive Jump (t : Thread) : Pc → Prop
  | limited {now : ℤ} {pri : ℕ} (hpc : t.pc = .limits now pri) (hp : t.s.programs[pri]? = none) :
      Jump t (.deaths now 0)
  | poll {now : ℤ} {pri : ℕ} {p : ProgPtr} (hpc : t.pc = .deaths now pri)
      (hp : t.s.programs[pri]? = some p) : Jump t (.poll now pri (t.s.prog p).pid)
  | again {now : ℤ} {pri : ℕ} (hpc : t.pc = .deaths now pri) (hp : t.s.programs[pri]? = none) :
      Jump t .loop
  | idle {pi : ℕ} {pCount : ℤ} {p : ProgPtr} (hpc : t.pc = .ending pi pCount)
      (hp : t.s.programs[pi]? = some p) (hpid : ¬(t.s.prog p).pid > 0) :
      Jump t (.ending (pi + 1) pCount)
  | wait {tries pCount kCount : ℤ} (hpc : t.pc = .waiting tries pCount kCount)
      (hwait : tries > 0 ∧ kCount > 0) : Jump t (.waitFor (tries - 1) pCount kCount 0)
  | sigkill {tries pCount kCount : ℤ} (hpc : t.pc = .waiting tries pCount kCount)
      (hwait : ¬(tries > 0 ∧ kCount > 0)) (hleft : pCount > 0) : Jump t (.killing 0 0)
  | waited {tries pCount kCount : ℤ} {pri : ℕ} (hpc : t.pc = .waitFor tries pCount kCount pri)
      (hp : t.s.programs[pri]? = none) : Jump t (.waiting tries pCount kCount)
  | dead {pi : ℕ} {pCount : ℤ} {p : ProgPtr} (hpc : t.pc = .killing pi pCount)
      (hp : t.s.programs[pi]? = some p) (hpid : ¬(t.s.prog p).pid > 0) :
      Jump t (.killing (pi + 1) pCount)
  | killed {pi : ℕ} {pCount : ℤ} (hpc : t.pc = .killing pi pCount)
      (hp : t.s.programs[pi]? = none) : Jump t (.reaping 1000 pCount pCount)
  | returned (hpc : t.pc = .returned) : Jump t .returned

/-- The shutdown calls `waitpid`, and goes on at one of three places. -/
inductive Waits (t : Thread) : Pc → Pc → Pc → Prop
  | waitFor {tries pCount kCount : ℤ} {pri : ℕ} {p : ProgPtr}
      (hpc : t.pc = .waitFor tries pCount kCount pri) (hp : t.s.programs[pri]? = some p) :
      Waits t (.waitFor tries (pCount - 1) (kCount - 1) (pri + 1))
        (.waitFor tries pCount kCount (pri + 1)) (.waitFor tries pCount (kCount - 1) (pri + 1))
  | reaping {tries pCount kCount : ℤ} (hpc : t.pc = .reaping tries pCount kCount)
      (hwait : tries > 0 ∧ kCount > 0) :
      Waits t (.reaping (tries - 1) (pCount - 1) (kCount - 1)) (.reaping (tries - 1) pCount kCount)
        (.reaping (tries - 1) pCount (kCount - 1))

/-- Where the thread is after a step, and what the step has done. -/
inductive Moves (env : ℕ → Env) (t : Thread) (os : OS) : Pc → World → Prop
  | jump {pc : Pc} (hj : t.Jump pc) : Moves env t os pc ⟨t.s, os⟩
  | leave (hpc : t.pc = .loop) (hoff : t.s.mode = .off) :
      Moves env t os (.ending 0 0) (World.setStatus ⟨t.s, os⟩ .ending)
  | enter (hpc : t.pc = .loop) : Moves env t os (.firstPass (env 0).utc ⟨0, t.s.schedule.capacity⟩)
      ⟨{ t.s with schedule := { t.s.schedule with passStart := t.s.schedule.units } }, os⟩
  | unit {now : ℤ} {wui : Iter} {wu : WorkUnit} {w : World} (hpc : t.pc = .firstPass now wui)
      (hwu : t.s.schedule.units[wui.pos]? = some wu)
      (hw : World.handleUnit (env 0) now wui.pos wu ⟨t.s, os⟩ = .ok w) :
      Moves env t os (.firstPass now { wui with pos := wui.pos + 1 }) w
  | erase {now : ℤ} {wui : Iter} (hpc : t.pc = .firstPass now wui)
      (hwu : t.s.schedule.units[wui.pos]? = none) : Moves env t os (.limits now 0)
        ⟨{ t.s with schedule :=
          { t.s.schedule with units := Schedule.eraseUsed t.s.schedule.units } }, os⟩
  | limit {now : ℤ} {pri : ℕ} {p : ProgPtr} (hpc : t.pc = .limits now pri)
      (hp : t.s.programs[pri]? = some p) : Moves env t os (.limits now (pri + 1))
        (World.handleLimit (env 0) now p ⟨t.s, os⟩)
  | death {now pid : ℤ} {pri : ℕ} {c : Child} {p : ProgPtr} {w : World}
      (hpc : t.pc = .poll now pri pid) (hreap : t.reaps (env 0) os = some c)
      (hp : t.s.running c.pid = some p)
      (hw : World.handleDeath (fun i => env (i + 1)) now c p
        ⟨t.s, os.reap t.s.self c (some p) (t.s.prog p).pid⟩ = .ok w) :
      Moves env t os (.poll now pri pid) w
  | alive {now pid : ℤ} {pri : ℕ} (hpc : t.pc = .poll now pri pid)
      (hreap : t.reaps (env 0) os = none) : Moves env t os (.deaths now (pri + 1)) ⟨t.s, os⟩
  | stray {c : Child} (hreap : t.reaps (env 0) os = some c) (hp : t.s.running c.pid = none) :
      Moves env t os .returned ⟨t.s, os.reap t.s.self c none 0⟩
  | bury {child zero echild : Pc} {c : Child} {p : ProgPtr} (hwait : t.Waits child zero echild)
      (hreap : t.reaps (env 0) os = some c) (hp : t.s.running c.pid = some p) :
      Moves env t os child
        (World.bury ⟨t.s, os.reap t.s.self c (some p) (t.s.prog p).pid⟩ c p t.now)
  | nobody {child zero echild pc : Pc} (hwait : t.Waits child zero echild)
      (hreap : t.reaps (env 0) os = none) (hpc : pc = zero ∨ pc = echild) :
      Moves env t os pc ⟨t.s, os⟩
  | stop {pi : ℕ} {pCount : ℤ} {p : ProgPtr} (hpc : t.pc = .ending pi pCount)
      (hp : t.s.programs[pi]? = some p) (hpid : (t.s.prog p).pid > 0) :
      Moves env t os (.ending (pi + 1) (if (World.sendSignal ⟨t.s, os⟩ (env 0) p
          (t.s.prog p).stopSig .ending).1 = 0 then pCount + 1 else pCount))
        (World.sendSignal ⟨t.s, os⟩ (env 0) p (t.s.prog p).stopSig .ending).2
  | stopped {pi : ℕ} {pCount : ℤ} (hpc : t.pc = .ending pi pCount)
      (hp : t.s.programs[pi]? = none) :
      Moves env t os (.waiting 10000 pCount pCount) (World.setStatus ⟨t.s, os⟩ .waiting)
  | kill {pi : ℕ} {pCount : ℤ} {p : ProgPtr} (hpc : t.pc = .killing pi pCount)
      (hp : t.s.programs[pi]? = some p) (hpid : (t.s.prog p).pid > 0) :
      Moves env t os (.killing (pi + 1) (pCount + 1))
        (World.sendSignal ⟨t.s, os⟩ (env 0) p 9 .sigkill).2
  | finish (hfin : t.finishing) :
      Moves env t os .returned (World.setStatus ⟨t.s, os⟩ .ready)

variable {t t' : Thread} {os os' : OS} {env : ℕ → Env} {pc : Pc}

/-! ## What the moves say of the thread -/

theorem mem_children_of_reaps {c : Child} {e : Env} (h : t.reaps e os = some c) :
    c ∈ os.children := by
  obtain ⟨pid, -, hc⟩ := Option.bind_eq_some_iff.mp h
  exact (OS.mem_zombies.mp (OS.mem_zombies_of_waitpid hc)).1

theorem Jump.waitsFor (h : t.Jump pc) : t.waitsFor = none := by
  cases h <;> simp [Thread.waitsFor, *]

theorem Jump.not_firstPass (h : t.Jump pc) (now : ℤ) (wui : Iter) : t.pc ≠ .firstPass now wui := by
  cases h <;> simp [*]

theorem Waits.inLoop {child zero echild : Pc} (h : t.Waits child zero echild) :
    t.inLoop = false := by
  cases h <;> simp [Thread.inLoop, *]

theorem finishing_cases (h : t.finishing) :
    (∃ tries pCount kCount, t.pc = .waiting tries pCount kCount ∧ ¬(tries > 0 ∧ kCount > 0) ∧
      ¬pCount > 0) ∨
    ∃ tries pCount kCount, t.pc = .reaping tries pCount kCount ∧ ¬(tries > 0 ∧ kCount > 0) := by
  unfold finishing at h
  cases hpc : t.pc <;> simp only [hpc, Bool.false_eq_true, decide_eq_true_eq] at h
  case waiting tries pCount kCount => exact .inl ⟨tries, pCount, kCount, rfl, h⟩
  case reaping tries pCount kCount => exact .inr ⟨tries, pCount, kCount, rfl, h⟩

theorem waitsFor_of_finishing (h : t.finishing) : t.waitsFor = none := by
  rcases finishing_cases h with ⟨_, _, _, hpc, -⟩ | ⟨_, _, _, hpc, hwait⟩
  · rw [waitsFor, hpc]
  · simp [waitsFor, hpc, hwait]

theorem inLoop_of_finishing (h : t.finishing) : t.inLoop = false := by
  rcases finishing_cases h with ⟨_, _, _, hpc, -⟩ | ⟨_, _, _, hpc, -⟩
  · rw [inLoop, hpc]
  · rw [inLoop, hpc]

theorem reaps_of_waitsFor (h : t.waitsFor = none) (e : Env) : t.reaps e os = none := by
  rw [reaps, h]
  rfl

theorem not_firstPass_of_not_inLoop (h : t.inLoop = false) (now : ℤ) (wui : Iter) :
    t.pc ≠ .firstPass now wui := by
  intro hpc
  simp [inLoop, hpc] at h

theorem not_firstPass_of_reaps {c : Child} {e : Env} (h : t.reaps e os = some c) (now : ℤ)
    (wui : Iter) : t.pc ≠ .firstPass now wui := by
  intro hpc
  simp [reaps, waitsFor, hpc] at h

/-! ## The branches -/

/-- The step is one of the moves. -/
def Moved (env : ℕ → Env) (t : Thread) (os : OS) (t' : Thread) (os' : OS) : Prop :=
  ∃ pc w, t.Moves env os pc w ∧ t' = { t with s := w.s, pc } ∧ os' = w.os

theorem moved_of_goto {w : World} (hm : t.Moves env os pc w) (h : t.goto pc w = .ok (t', os')) :
    t.Moved env os t' os' := by
  cases h
  exact ⟨pc, w, hm, rfl, rfl⟩

theorem moved_of_gotoAfter {r : Except Halt World} (hm : ∀ w, r = .ok w → t.Moves env os pc w)
    (h : t.gotoAfter pc r = .ok (t', os')) : t.Moved env os t' os' := by
  cases r with
  | error e => cases h
  | ok w => exact moved_of_goto (hm w rfl) h

theorem moved_of_firstPass {now : ℤ} {wui : Iter} (hpc : t.pc = .firstPass now wui)
    (h : t.stepFirstPass (env 0) os now wui = .ok (t', os')) : t.Moved env os t' os' := by
  unfold stepFirstPass at h
  split_ifs at h
  cases hwu : t.s.schedule.units[wui.pos]? with
  | some wu =>
    rw [hwu] at h
    exact moved_of_gotoAfter (fun w hw => .unit hpc hwu hw) h
  | none =>
    rw [hwu] at h
    exact moved_of_goto (.erase hpc hwu) h

theorem moved_of_poll {now pid : ℤ} {pri : ℕ} (hpc : t.pc = .poll now pri pid)
    (h : t.stepPoll env os now pri pid = .ok (t', os')) : t.Moved env os t' os' := by
  have hreap : t.reaps (env 0) os = (os.waitpid pid (env 0).pick).1.child? := by
    rw [reaps, waitsFor, hpc]
    rfl
  unfold stepPoll at h
  rcases World.wait_cases ⟨t.s, os⟩ (env 0) pid with
    ⟨c, p, hc, hp, he⟩ | ⟨c, hc, hp, he⟩ | ⟨hc, he | he⟩
  · rw [he] at h
    exact moved_of_gotoAfter (fun w hw => .death hpc (hreap.trans hc) hp hw) h
  · rw [he] at h
    exact moved_of_goto (.stray (hreap.trans hc) hp) h
  · rw [he] at h
    exact moved_of_goto (.alive hpc (hreap.trans hc)) h
  · rw [he] at h
    exact moved_of_goto (.alive hpc (hreap.trans hc)) h

theorem moved_of_wait {pid : ℤ} {child zero echild : Pc} (hwait : t.Waits child zero echild)
    (hpid : t.waitsFor = some pid)
    (h : t.stepWait (env 0) os pid child zero echild = .ok (t', os')) : t.Moved env os t' os' := by
  have hreap : t.reaps (env 0) os = (os.waitpid pid (env 0).pick).1.child? := by
    rw [reaps, hpid]
    rfl
  unfold stepWait at h
  rcases World.wait_cases ⟨t.s, os⟩ (env 0) pid with
    ⟨c, p, hc, hp, he⟩ | ⟨c, hc, hp, he⟩ | ⟨hc, he | he⟩
  · rw [he] at h
    exact moved_of_goto (.bury hwait (hreap.trans hc) hp) h
  · rw [he] at h
    exact moved_of_goto (.stray (hreap.trans hc) hp) h
  · rw [he] at h
    exact moved_of_goto (.nobody hwait (hreap.trans hc) (.inl rfl)) h
  · rw [he] at h
    exact moved_of_goto (.nobody hwait (hreap.trans hc) (.inr rfl)) h

/-! ## The step -/

/-- Every step of a scheduler thread is one of these moves. -/
theorem step_moves (h : t.step env os = .ok (t', os')) : t.Moved env os t' os' := by
  unfold step at h
  dsimp only at h
  cases hpc : t.pc <;> simp only [hpc] at h
  case loop =>
    split_ifs at h with hoff
    · exact moved_of_goto (.leave hpc hoff) h
    · exact moved_of_goto (.enter hpc) h
  case firstPass => exact moved_of_firstPass hpc h
  case limits now pri =>
    cases hp : t.s.programs[pri]? with
    | some p => rw [hp] at h; exact moved_of_goto (.limit hpc hp) h
    | none => rw [hp] at h; exact moved_of_goto (.jump (.limited hpc hp)) h
  case deaths now pri =>
    cases hp : t.s.programs[pri]? with
    | some p => rw [hp] at h; exact moved_of_goto (.jump (.poll hpc hp)) h
    | none => rw [hp] at h; exact moved_of_goto (.jump (.again hpc hp)) h
  case poll => exact moved_of_poll hpc h
  case ending pi pCount =>
    cases hp : t.s.programs[pi]? with
    | some p =>
      simp only [hp] at h
      by_cases hpid : (t.s.prog p).pid > 0
      · rw [if_pos hpid] at h
        exact moved_of_goto (.stop hpc hp hpid) h
      · rw [if_neg hpid] at h
        exact moved_of_goto (.jump (.idle hpc hp hpid)) h
    | none => rw [hp] at h; exact moved_of_goto (.stopped hpc hp) h
  case waiting tries pCount kCount =>
    split_ifs at h with hwait hleft
    · exact moved_of_goto (.jump (.wait hpc hwait)) h
    · exact moved_of_goto (.jump (.sigkill hpc hwait hleft)) h
    · have hfin : t.finishing := by
        simp only [finishing, hpc, decide_eq_true_eq]
        exact ⟨hwait, hleft⟩
      exact moved_of_goto (.finish hfin) h
  case waitFor tries pCount kCount pri =>
    cases hp : t.s.programs[pri]? with
    | some p =>
      rw [hp] at h
      exact moved_of_wait (.waitFor hpc hp) (by simp [waitsFor, hpc, hp]) h
    | none => rw [hp] at h; exact moved_of_goto (.jump (.waited hpc hp)) h
  case killing pi pCount =>
    cases hp : t.s.programs[pi]? with
    | some p =>
      simp only [hp] at h
      split_ifs at h with hpid
      · exact moved_of_goto (.kill hpc hp hpid) h
      · exact moved_of_goto (.jump (.dead hpc hp hpid)) h
    | none => rw [hp] at h; exact moved_of_goto (.jump (.killed hpc hp)) h
  case reaping tries pCount kCount =>
    split_ifs at h with hwait
    · exact moved_of_wait (.reaping hpc hwait) (by simp [waitsFor, hpc, hwait]) h
    · have hfin : t.finishing := by
        simp only [finishing, hpc, decide_eq_true_eq]
        exact hwait
      exact moved_of_goto (.finish hfin) h
  case returned => exact moved_of_goto (.jump (.returned hpc)) h

/-- A step that is given a child the thread finds is one of the reaper or of the shutdown. -/
theorem death_or_bury {c : Child} {p : ProgPtr} (hreap : t.reaps (env 0) os = some c)
    (hp : t.s.running c.pid = some p) (h : t.step env os = .ok (t', os')) :
    (∃ now pri pid, t.pc = .poll now pri pid ∧
      World.handleDeath (fun i => env (i + 1)) now c p
        ⟨t.s, os.reap t.s.self c (some p) (t.s.prog p).pid⟩ = .ok ⟨t'.s, os'⟩) ∨
    (t.inLoop = false ∧ (⟨t'.s, os'⟩ : World) =
      World.bury ⟨t.s, os.reap t.s.self c (some p) (t.s.prog p).pid⟩ c p t.now) := by
  obtain ⟨pc, w, hm, rfl, rfl⟩ := step_moves h
  have hidle : ∀ {P : Prop}, t.waitsFor = none → P := fun hno =>
    absurd ((reaps_of_waitsFor hno _).symm.trans hreap) nofun
  cases hm with
  | jump hj => exact hidle hj.waitsFor
  | @death now pid pri c' p' w hpc hreap' hp' hw =>
    cases hreap'.symm.trans hreap
    cases hp'.symm.trans hp
    exact .inl ⟨now, pri, pid, hpc, hw⟩
  | alive hpc hno => exact absurd (hno.symm.trans hreap) nofun
  | stray hreap' hno =>
    cases hreap'.symm.trans hreap
    exact absurd (hno.symm.trans hp) nofun
  | bury hwait hreap' hp' =>
    cases hreap'.symm.trans hreap
    cases hp'.symm.trans hp
    exact .inr ⟨hwait.inLoop, rfl⟩
  | nobody hwait hno => exact absurd (hno.symm.trans hreap) nofun
  | finish hfin => exact hidle (waitsFor_of_finishing hfin)
  | leave hpc => exact hidle (by simp [waitsFor, hpc])
  | enter hpc => exact hidle (by simp [waitsFor, hpc])
  | unit hpc => exact hidle (by simp [waitsFor, hpc])
  | erase hpc => exact hidle (by simp [waitsFor, hpc])
  | limit hpc => exact hidle (by simp [waitsFor, hpc])
  | stop hpc => exact hidle (by simp [waitsFor, hpc])
  | stopped hpc => exact hidle (by simp [waitsFor, hpc])
  | kill hpc => exact hidle (by simp [waitsFor, hpc])

/-- In the first pass the step is the branch of the unit. -/
theorem handleUnit_of_step {now : ℤ} {wui : Iter} {wu : WorkUnit} (hpc : t.pc = .firstPass now wui)
    (hwu : t.s.schedule.units[wui.pos]? = some wu) (h : t.step env os = .ok (t', os')) :
    World.handleUnit (env 0) now wui.pos wu ⟨t.s, os⟩ = .ok ⟨t'.s, os'⟩ := by
  simp only [step, hpc, stepFirstPass, hwu] at h
  split_ifs at h
  cases hw : World.handleUnit (env 0) now wui.pos wu ⟨t.s, os⟩ with
  | error e =>
    rw [hw] at h
    cases h
  | ok w =>
    rw [hw] at h
    cases h
    rfl

end Thread

end Peter
