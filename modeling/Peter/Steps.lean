import Peter.Entries
import Peter.Moves

/-!
# One step of a scheduler thread

`Thread.Shape` lists what a step can enter in the books, and `Thread.step_entries` shows that every
step of the thread is of such a shape.  `Process.step_entries` is the same for the process, and
makes it refine `supervisor`.
-/

namespace Peter

/-! ## What a step is about -/

/-- The event for a death with a wait status. -/
def deathType (status : ℕ) : EventType := if wifsignaled status then .crash else .ended

namespace Thread

/-- The first pass is at a due start unit of program `p`. -/
def AtStart (t : Thread) (p : ProgPtr) : Prop := ∃ now wui wu,
  t.pc = .firstPass now wui ∧ t.s.schedule.units[wui.pos]? = some wu ∧ wu.wType = .runProg ∧
    wu.delta now ≤ 0 ∧ wu.program = some p

/-- The reaper of the main loop logs `ev` for the death of `c`, which ran as program `p`. -/
def Logs (t : Thread) (c : Child) (p : ProgPtr) (ev : Option Event) : Prop :=
  t.inLoop → (t.s.prog p).stopMode = 0 →
    ∃ now, ev = some ⟨now, deathType (c.status.getD 0), p, c.status.getD 0⟩

/-- The step is neither about a start nor about a death. -/
structure Calm (t : Thread) (e : Env) (os : OS) : Prop where
  reaps : t.reaps e os = none
  start : ∀ p, ¬t.AtStart p

/-- What a step enters in the books of scheduler `i`. -/
inductive Shape (i : ℕ) (e : Env) (t : Thread) (os : OS) : List Entry → Prop
  | quiet (hcalm : t.Calm e os) : Shape i e t os []
  | start {p : ProgPtr} {hint now : ℤ} (hat : t.AtStart p) (hpid : (t.s.prog p).pid = 0)
      (hok : e.startable (t.s.prog p)) : Shape i e t os [.fork (i, p) hint now, .enter (i, p)]
  | refused {p : ProgPtr} (hat : t.AtStart p)
      (hno : ¬((t.s.prog p).pid = 0 ∧ e.startable (t.s.prog p))) : Shape i e t os [.enter (i, p)]
  | signal {k : Key} {sig : ℤ} {cause : Cause} {ok : Bool} (hcalm : t.Calm e os) :
      Shape i e t os [.signal k sig cause ok]
  | expire {k : Key} {sig : ℤ} {ok : Bool} (hcalm : t.Calm e os) :
      Shape i e t os [.expire k sig ok]
  | death {c : Child} {p : ProgPtr} {ev : Option Event} (hreap : t.reaps e os = some c)
      (hev : t.Logs c p ev) : Shape i e t os [.bury i c p ev]
  | restart {c : Child} {p : ProgPtr} {ev : Option Event} {hint now : ℤ}
      (hreap : t.reaps e os = some c) (hev : t.Logs c p ev) :
      Shape i e t os [.bury i c p ev, .fork (i, p) hint now]
  | stray {c : Child} (hreap : t.reaps e os = some c) : Shape i e t os [.lose i c]

end Thread

namespace World

variable {w w' : World} {p : ProgPtr} {i : ℕ} (S : ℕ → Scheduler)

/-! ## Deaths -/

theorem bury_frame (w : World) (c : Child) (p : ProgPtr) (now : ℤ) :
    w.s.Frame (w.bury c p now).s := by
  have h := w.frame_modifyProg p (f := fun prog => { prog with pid := 0, tEnd := now })
    (by constructor <;> simp)
  exact ⟨h.self, h.programs, h.prog⟩

/-- Taking a dead child away and clearing its program is an entry in the books. -/
theorem bury_books (w : World) (c : Child) (p : ProgPtr) (now : ℤ) :
    ({ w with os := w.os.reap i c (some p) (w.prog p).pid }.bury c p now).books S i =
      (w.books S i).bury i c p none := by
  unfold bury
  rw [setRunning_books, modifyProg_books_of_starts S _ rfl rfl, Books.bury, slot_books]
  simp only [Option.toList_none, List.append_nil, Function.update_eq_self]
  rfl

/-- The event the reaper logs for a death. -/
def deathEvent (w : World) (now : ℤ) (p : ProgPtr) (status : ℕ) : Option Event :=
  if wifsignaled status then
    if (w.prog p).stopMode = 0 then some ⟨now, .crash, p, status⟩ else none
  else some ⟨now, .ended, p, status⟩

theorem deathEvent_spec (w : World) (now : ℤ) (p : ProgPtr) (status : ℕ) :
    ∀ e ∈ w.deathEvent now p status,
      e.program = p ∧ (e.eventType = .ended ∨ e.eventType = .crash) := by
  intro e he
  unfold deathEvent at he
  split_ifs at he <;> cases he <;> simp

theorem deathEvent_eq {now : ℤ} {status : ℕ} (h : (w.prog p).stopMode = 0) :
    w.deathEvent now p status = some ⟨now, deathType status, p, status⟩ := by
  unfold deathEvent deathType
  split_ifs <;> rfl

theorem addDeathEvent_frame (w : World) (now : ℤ) (p : ProgPtr) (status : ℕ) :
    w.s.Frame (w.addDeathEvent now p status).s := by
  unfold addDeathEvent
  split_ifs <;> exact ⟨rfl, rfl, fun _ => .refl _⟩

theorem addDeathEvent_books (w : World) (c : Child) (p : ProgPtr) (now : ℤ) (status : ℕ)
    {b : Books} (hb : w.books S i = b.bury i c p none) :
    (w.addDeathEvent now p status).books S i = b.bury i c p (w.deathEvent now p status) := by
  unfold addDeathEvent deathEvent
  split_ifs
  · rw [addEvent_books S _ _ _ _ rfl, hb]
    simp [Books.bury]
  · exact hb
  · rw [addEvent_books S _ _ _ _ rfl, hb]
    simp [Books.bury]

theorem Restart.entries (h : w.Restart p w') (hi : w.s.self = i) :
    w'.books S i = w.books S i ∨ ∃ hint now,
      supervisor.step (.fork (i, p) hint now) (w.books S i) = .ok (w'.books S i) := by
  rcases h with h | ⟨e, hint, w₁, h₁, hpid, h₂⟩
  · exact .inl (h.books_eq S i)
  · refine .inr ⟨hint, e.utc, ?_⟩
    have hslot : (w₁.books S i).slot (i, p) = 0 := (slot_books S w₁ p).trans hpid
    rw [h₂.books_eq, forked_books S (h₁.frame.self.trans hi), ← h₁.books_eq]
    exact step_fork.2 ⟨hslot, rfl⟩

/-! ## Entries of the calls -/

theorem exec_single {e : Entry} {b b' : Books} (h : supervisor.step e b = .ok b') :
    supervisor.exec [e] b = .ok b' := Transition.System.exec_singleton h

theorem exec_pair {e e' : Entry} {b b' b'' : Books} (h : supervisor.step e b = .ok b')
    (h' : supervisor.step e' b' = .ok b'') : supervisor.exec [e, e'] b = .ok b'' :=
  Transition.System.exec_cons_eq_ok.2 ⟨b', h, exec_single h'⟩

theorem enter_entry (w : World) (p : ProgPtr) :
    supervisor.step (.enter (i, p)) (w.books S i) =
      .ok ((w.setRunning (w.prog p).pid (some p)).books S i) := by
  rw [setRunning_books, ← slot_books S (i := i)]
  rfl

theorem sendSignal_entries (w : World) (hi : w.s.self = i) (e : Env) (p : ProgPtr) (sig : ℤ)
    {cause : Cause} (hcause : cause ≠ .limit) :
    (w.sendSignal e p sig cause).2.books S i = w.books S i ∨
    supervisor.step (.signal (i, p) sig cause e.killOk) (w.books S i) =
      .ok ((w.sendSignal e p sig cause).2.books S i) := by
  by_cases hpid : (w.prog p).pid = 0
  · left
    unfold sendSignal
    rw [if_pos hpid]
  · right
    rw [signal_books S hi e sig cause hpid]
    exact step_signal.2 ⟨⟨by rwa [slot_books], hcause⟩, rfl⟩

/-- A dead child is buried under the program found for it, which may then run again. -/
theorem handleDeath_entries {env : ℕ → Env} {now : ℤ} {c : Child} (hi : w.s.self = i)
    (hc : c ∈ w.os.children) (hp : w.s.running c.pid = some p)
    (h : handleDeath env now c p { w with os := w.os.reap i c (some p) (w.prog p).pid } =
      .ok w') :
    w.s.Frame w'.s ∧ ∃ ev : Option Event, ((w.prog p).stopMode = 0 →
        ev = some ⟨now, deathType (c.status.getD 0), p, c.status.getD 0⟩) ∧
      (supervisor.exec [.bury i c p ev] (w.books S i) = .ok (w'.books S i) ∨
      ∃ hint now', supervisor.exec [.bury i c p ev, .fork (i, p) hint now'] (w.books S i) =
        .ok (w'.books S i)) := by
  obtain ⟨w₃, hnext, rfl⟩ := handleDeath_eq_ok h
  set w₁ := { w with os := w.os.reap i c (some p) (w.prog p).pid }.bury c p now with hw₁
  set w₂ := w₁.addDeathEvent now p (c.status.getD 0) with hw₂
  have hf₁ : w.s.Frame w₁.s := bury_frame _ c p now
  have hf₂ : w.s.Frame w₂.s := hf₁.trans (addDeathEvent_frame ..)
  have hb₂ := addDeathEvent_books S w₁ c p now (c.status.getD 0) (bury_books S w c p now)
  have hburied := step_bury.2 ⟨⟨hc, (congrFun (running_books S w) c.pid).trans hp,
    w₁.deathEvent_spec now p (c.status.getD 0)⟩, hb₂.symm⟩
  have hr := restart_whatNext hnext
  have hq := quiet_incChanged w₃
  refine ⟨(hf₂.trans hr.frame).trans hq.frame, w₁.deathEvent now p (c.status.getD 0),
    fun hstop => deathEvent_eq ?_, ?_⟩
  · rcases (hf₁.prog p).stopMode with h0 | h0
    · exact h0.trans hstop
    · exact h0
  · rw [hq.books_eq]
    rcases hr.entries S (hf₂.self.trans hi) with heq | ⟨hint, now', hfork⟩
    · rw [heq]
      exact .inl (exec_single hburied)
    · exact .inr ⟨hint, now', exec_pair hburied hfork⟩

/-- The `maxruntime` branch drops the pid of a limited program that it has signalled. -/
theorem handleLimit_entries (w : World) (hi : w.s.self = i) (e : Env) (now : ℤ) (p : ProgPtr) :
    w.s.Frame (w.handleLimit e now p).s ∧
    ((w.handleLimit e now p).books S i = w.books S i ∨ ∃ sig,
      supervisor.step (.expire (i, p) sig e.killOk) (w.books S i) =
        .ok ((w.handleLimit e now p).books S i)) := by
  unfold handleLimit
  by_cases hlim : (w.prog p).checkRunlimit e.utc = true
  case neg =>
    rw [if_neg hlim]
    exact ⟨.refl _, .inl rfl⟩
  case pos =>
    rw [if_pos hlim]
    dsimp only
    have hq : ∀ w₁ : World, w₁.Quiet (w₁.addEvent now .limit p 0) :=
      fun w₁ => quiet_addEvent w₁ now p 0 (.inr rfl)
    have hf := sendSignal_frame w e p (w.prog p).stopSig .limit
    have hf' := frame_modifyProg (w.sendSignal e p (w.prog p).stopSig .limit).2 p
      (f := fun prog => { prog with pid := 0 }) (by constructor <;> simp)
    refine ⟨(hf.trans hf').trans (hq _).frame, .inr ⟨(w.prog p).stopSig, ?_⟩⟩
    simp only [Program.checkRunlimit, decide_eq_true_eq] at hlim
    obtain ⟨hpid, hmax, -⟩ := hlim
    rw [(hq _).books_eq, setPid, modifyProg_books_of_starts S _ rfl rfl,
      signal_books S hi e _ _ hpid]
    exact step_expire.2 ⟨⟨by rwa [slot_books], by simpa [limited_books] using hmax⟩, rfl⟩

end World

/-! ## The step of the thread -/

namespace Thread

variable {i : ℕ} {t t' : Thread} {os os' : OS} {e : Env} {env : ℕ → Env}

/-- A step that makes the entries of a shape. -/
def Entered (S : ℕ → Scheduler) (i : ℕ) (e : Env) (t : Thread) (os : OS) (w' : World) : Prop :=
  t.s.Frame w'.s ∧ ∃ es, t.Shape i e os es ∧
    supervisor.exec es (World.books S i ⟨t.s, os⟩) = .ok (w'.books S i)

variable (S : ℕ → Scheduler)

theorem entered_quiet {w' : World} (hcalm : t.Calm e os)
    (hq : World.Quiet ⟨t.s, os⟩ w') : t.Entered S i e os w' :=
  ⟨hq.frame, [], .quiet hcalm, by rw [hq.books_eq]; rfl⟩

/-- Outside the first pass only `waitpid` is about something. -/
theorem calm_of_reaps (hreap : t.reaps e os = none) (hpc : ∀ now wui, t.pc ≠ .firstPass now wui) :
    t.Calm e os := by
  refine ⟨hreap, ?_⟩
  rintro p ⟨now, wui, wu, h, -⟩
  exact hpc now wui h

theorem calm_of_unit {now : ℤ} {wui : Iter} (hpc : t.pc = .firstPass now wui)
    (h : ∀ wu, t.s.schedule.units[wui.pos]? = some wu → wu.wType = .runProg → 0 < wu.delta now) :
    t.Calm e os := by
  refine ⟨by simp [reaps, waitsFor, hpc], ?_⟩
  rintro p ⟨now', wui', wu, hpc', hwu, hty, hdue, -⟩
  rw [hpc] at hpc'
  cases hpc'
  have := h wu hwu hty
  omega

theorem AtStart.reaps {p : ProgPtr} (h : t.AtStart p) : t.reaps e os = none := by
  obtain ⟨now, wui, wu, hpc, -⟩ := h
  simp [Thread.reaps, waitsFor, hpc]

theorem runProg_entered {p : ProgPtr} {w : World} (hi : t.s.self = i) (hat : t.AtStart p)
    (h : World.run e p ⟨t.s, os⟩ = .ok w) (pos : ℕ) (wu : WorkUnit) (now : ℤ) :
    t.Entered S i e os ((w.markUsed pos wu now).setRunning
      ((w.markUsed pos wu now).prog p).pid (some p)) := by
  have hm := World.quiet_markUsed w pos wu now
  have henter := World.enter_entry S (i := i) (w.markUsed pos wu now) p
  rw [hm.books_eq] at henter
  have hf : ∀ q x, (w.markUsed pos wu now).s.Frame ((w.markUsed pos wu now).setRunning x q).s :=
    fun q x => ⟨rfl, rfl, fun _ => .refl _⟩
  rcases World.run_cases h with ⟨hq, hno⟩ | ⟨hpid, hok, hint, w₁, -, hq, rfl⟩
  · refine ⟨(hq.frame.trans hm.frame).trans (hf _ _), _, .refused hat hno, ?_⟩
    rw [← hq.books_eq]
    exact World.exec_single henter
  · have hfork := World.forked_books S (hq.frame.self.trans hi) e p hint
    have hslot : (World.books S i ⟨t.s, os⟩).slot (i, p) = 0 :=
      (World.slot_books S ⟨t.s, os⟩ p).trans hpid
    refine ⟨((hq.frame.trans (w₁.forked_frame e p hint)).trans hm.frame).trans (hf _ _),
      [.fork (i, p) hint e.utc, .enter (i, p)], .start hat hpid hok, World.exec_pair ?_ henter⟩
    rw [hfork, hq.books_eq]
    exact if_pos hslot

theorem sendSignal_entered {p : ProgPtr} (hi : t.s.self = i) (hcalm : t.Calm e os)
    {w : World} (hq : World.Quiet ⟨t.s, os⟩ w) {sig : ℤ} {cause : Cause} (hcause : cause ≠ .limit)
    {w' : World} (hq' : (w.sendSignal e p sig cause).2.Quiet w') : t.Entered S i e os w' := by
  have hf := (hq.frame.trans (w.sendSignal_frame e p sig cause)).trans hq'.frame
  rcases World.sendSignal_entries S w (hq.frame.self.trans hi) e p sig hcause with hb | hb
  · refine ⟨hf, [], .quiet hcalm, ?_⟩
    rw [hq'.books_eq, hb, hq.books_eq]
    rfl
  · rw [hq.books_eq, ← hq'.books_eq] at hb
    exact ⟨hf, _, .signal hcalm, World.exec_single hb⟩

theorem handleUnit_entered {now : ℤ} {wui : Iter} {wu : WorkUnit} {w' : World}
    (hi : t.s.self = i) (hpc : t.pc = .firstPass now wui)
    (hwu : t.s.schedule.units[wui.pos]? = some wu)
    (h : World.handleUnit e now wui.pos wu ⟨t.s, os⟩ = .ok w') : t.Entered S i e os w' := by
  have hcalm : (wu.wType = .runProg → 0 < wu.delta now) → t.Calm e os := by
    intro hno
    apply calm_of_unit hpc
    intro wu' hwu' hty'
    rw [hwu] at hwu'
    cases hwu'
    exact hno hty'
  cases World.handles_of_handleUnit h with
  | later hnot =>
    refine entered_quiet S (hcalm fun hty => ?_) (.refl _)
    simp only [WorkUnit.Due, hty] at hnot
    omega
  | exit hty =>
    exact entered_quiet S (hcalm (by simp [hty]))
      ((World.quiet_markUsed ..).trans (World.quiet_setMode ..))
  | run hty hdue hp hrun =>
    exact runProg_entered S hi ⟨now, wui, wu, hpc, hwu, hty, hdue, hp⟩ hrun wui.pos wu now
  | @stop p w₁ hty hdue hp hw =>
    have hq : World.Quiet ⟨t.s, os⟩ w₁ := by
      rw [hw]
      exact (World.quiet_modifyProg _ p (by constructor <;> simp) rfl rfl).trans
        (World.quiet_addEvent _ now p (-1) (.inl rfl))
    exact sendSignal_entered S hi (hcalm (by simp [hty])) hq (by decide : Cause.endProg ≠ .limit)
      (World.quiet_markUsed ..)
  | nostart hty => exact entered_quiet S (hcalm (by simp [hty])) (World.quiet_markUsed ..)

theorem lose_entered {c : Child} (hi : t.s.self = i) (hreap : t.reaps e os = some c)
    (hrun : t.s.running c.pid = none) :
    t.Entered S i e os ⟨t.s, os.reap t.s.self c none 0⟩ := by
  obtain ⟨pid, -, hc⟩ := Option.bind_eq_some_iff.1 hreap
  have hmem := (OS.mem_zombies.1 (OS.mem_zombies_of_waitpid hc)).1
  refine ⟨.refl _, [.lose i c], .stray hreap, World.exec_single ?_⟩
  rw [hi]
  exact step_lose.2 ⟨⟨hmem, (congrFun (World.running_books S _) c.pid).trans hrun⟩, rfl⟩

/-- A step that makes no call of `waitpid` outside the first pass. -/
theorem calm_of_waitsFor (hno : t.waitsFor = none) (hpc : ∀ now wui, t.pc ≠ .firstPass now wui) :
    t.Calm e os := calm_of_reaps (reaps_of_waitsFor hno e) hpc

theorem handleDeath_entered {now : ℤ} {c : Child} {p : ProgPtr} {w : World} (hi : t.s.self = i)
    (hreap : t.reaps (env 0) os = some c) (hp : t.s.running c.pid = some p)
    (hw : World.handleDeath (fun i => env (i + 1)) now c p
      ⟨t.s, os.reap t.s.self c (some p) (t.s.prog p).pid⟩ = .ok w) :
    t.Entered S i (env 0) os w := by
  obtain ⟨hf, ev, hev, hb | ⟨hint, now', hb⟩⟩ :=
    World.handleDeath_entries S (w := ⟨t.s, os⟩) hi (mem_children_of_reaps hreap) hp (hi ▸ hw)
  · exact ⟨hf, _, .death hreap fun _ hstop => ⟨now, hev hstop⟩, hb⟩
  · exact ⟨hf, _, .restart hreap fun _ hstop => ⟨now, hev hstop⟩, hb⟩

theorem bury_entered {c : Child} {p : ProgPtr} (hi : t.s.self = i) (hloop : t.inLoop = false)
    (hreap : t.reaps e os = some c) (hp : t.s.running c.pid = some p) : t.Entered S i e os
      (World.bury ⟨t.s, os.reap t.s.self c (some p) (t.s.prog p).pid⟩ c p t.now) := by
  have hf := World.bury_frame ⟨t.s, os.reap t.s.self c (some p) (t.s.prog p).pid⟩ c p t.now
  refine ⟨hf, [.bury i c p none],
    .death hreap fun hin => absurd hin (by simp [hloop]), World.exec_single ?_⟩
  have hbooks := World.bury_books S (i := i) ⟨t.s, os⟩ c p t.now
  rw [hi]
  refine (step_bury.2 ⟨⟨mem_children_of_reaps hreap,
    (congrFun (World.running_books S _) c.pid).trans hp, by simp⟩, hbooks.symm⟩)

/-- Every move of a scheduler thread makes the entries of a shape in the books. -/
theorem Moves.entered {pc : Pc} {w : World} (hi : t.s.self = i) (hm : t.Moves env os pc w) :
    t.Entered S i (env 0) os w := by
  cases hm with
  | jump hj => exact entered_quiet S (calm_of_waitsFor hj.waitsFor hj.not_firstPass) (.refl _)
  | leave hpc hoff =>
    exact entered_quiet S (calm_of_waitsFor (by simp [waitsFor, hpc]) (by simp [hpc]))
      (World.quiet_setStatus ..)
  | enter hpc =>
    exact entered_quiet S (calm_of_waitsFor (by simp [waitsFor, hpc]) (by simp [hpc]))
      (World.quiet_schedule ..)
  | unit hpc hwu hw => exact handleUnit_entered S hi hpc hwu hw
  | erase hpc hwu =>
    refine entered_quiet S (calm_of_unit hpc fun wu h => ?_) (World.quiet_schedule ..)
    simp [hwu] at h
  | @limit now pri p hpc hp =>
    have hcalm : t.Calm (env 0) os := calm_of_waitsFor (by simp [waitsFor, hpc]) (by simp [hpc])
    obtain ⟨hf, hb | ⟨sig, hb⟩⟩ := World.handleLimit_entries S ⟨t.s, os⟩ hi (env 0) now p
    · exact ⟨hf, [], .quiet hcalm, by rw [hb]; rfl⟩
    · exact ⟨hf, _, .expire hcalm, World.exec_single hb⟩
  | death hpc hreap hp hw => exact handleDeath_entered S hi hreap hp hw
  | alive hpc hreap => exact entered_quiet S (calm_of_reaps hreap (by simp [hpc])) (.refl _)
  | stray hreap hp => exact lose_entered S hi hreap hp
  | bury hwait hreap hp => exact bury_entered S hi hwait.inLoop hreap hp
  | nobody hwait hreap hpc =>
    exact entered_quiet S (calm_of_reaps hreap (not_firstPass_of_not_inLoop hwait.inLoop)) (.refl _)
  | stop hpc hp hpid =>
    exact sendSignal_entered S hi (calm_of_waitsFor (by simp [waitsFor, hpc]) (by simp [hpc]))
      (.refl _) (by decide : Cause.ending ≠ .limit) (.refl _)
  | stopped hpc hp =>
    exact entered_quiet S (calm_of_waitsFor (by simp [waitsFor, hpc]) (by simp [hpc]))
      (World.quiet_setStatus ..)
  | kill hpc hp hpid =>
    exact sendSignal_entered S hi (calm_of_waitsFor (by simp [waitsFor, hpc]) (by simp [hpc]))
      (.refl _) (by decide : Cause.sigkill ≠ .limit) (.refl _)
  | finish hfin =>
    exact entered_quiet S (calm_of_waitsFor (waitsFor_of_finishing hfin)
      (not_firstPass_of_not_inLoop (inLoop_of_finishing hfin))) (World.quiet_setStatus ..)

/-- Every step of a scheduler thread makes the entries of a shape in the books. -/
theorem step_entered (hi : t.s.self = i) (h : t.step env os = .ok (t', os')) :
    t.Entered S i (env 0) os ⟨t'.s, os'⟩ := by
  obtain ⟨pc, w, hm, rfl, rfl⟩ := step_moves h
  exact hm.entered S hi

/-- The thread does not come back to the main loop. -/
theorem inLoop_of_step (h : t.step env os = .ok (t', os')) (hloop : t'.inLoop) : t.inLoop := by
  obtain ⟨pc, w, hm, rfl, rfl⟩ := step_moves h
  have hkeep : ∀ {pc}, t.Jump pc → inLoop { t with pc } → t.inLoop := by
    intro pc hj hin
    cases hj <;> simp_all [inLoop]
  have hwaits : ∀ {child zero echild}, t.Waits child zero echild → ∀ pc ∈ [child, zero, echild],
      inLoop { t with s := w.s, pc } = false := by
    rintro child zero echild (_ | _) <;> simp [inLoop]
  cases hm with
  | jump hj => exact hkeep hj hloop
  | bury hwait => exact absurd hloop (by rw [hwaits hwait _ (by simp)]; decide)
  | nobody hwait hreap hpc =>
    refine absurd hloop ?_
    rw [hwaits hwait _ (by rcases hpc with rfl | rfl <;> simp)]
    decide
  | enter hpc => simp [inLoop, hpc]
  | unit hpc => simp [inLoop, hpc]
  | erase hpc => simp [inLoop, hpc]
  | limit hpc => simp [inLoop, hpc]
  | death hpc => simp [inLoop, hpc]
  | alive hpc => simp [inLoop, hpc]
  | leave => simp [inLoop] at hloop
  | stray => simp [inLoop] at hloop
  | stop => simp [inLoop] at hloop
  | stopped => simp [inLoop] at hloop
  | kill => simp [inLoop] at hloop
  | finish => simp [inLoop] at hloop

end Thread

end Peter
