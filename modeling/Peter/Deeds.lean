import Peter.Runs

/-!
# What a step does to the programs

The fields of a program that its processes leave behind are its `Life`.  A call that starts no
process and sees none die keeps all lives (`World.Still`).  One step of a scheduler thread does one
of the deeds of `Thread.Deed` to them, and nothing else (`Thread.deed_of_step`).
-/

namespace Peter

/-- What a program object keeps of its processes. -/
structure Life where
  pid : ℤ
  tStart : ℤ
  tEnd : ℤ
  starts : ℕ
  seqIdx : ℕ

namespace Life

/-- A process is started. -/
def started (pid utc : ℤ) (l : Life) : Life :=
  { l with pid, tStart := utc, tEnd := 0, starts := l.starts + 1 }

/-- The pid of a process is dropped. -/
def dropped (l : Life) : Life := { l with pid := 0 }

/-- A process is found dead. -/
def ended (now : ℤ) (l : Life) : Life := { l with pid := 0, tEnd := now }

/-- `inc_seq_idx`, for a sequence of `n` commands. -/
def advanced (n : ℕ) (l : Life) : Life := { l with seqIdx := (l.seqIdx + 1) % n }

end Life

def Program.life (p : Program) : Life := ⟨p.pid, p.tStart, p.tEnd, p.starts, p.seqIdx⟩

/-- The call keeps the lives of all programs, the command of those that run, the children and the
counter of changes. -/
structure World.Still (w w' : World) : Prop where
  frame : w.s.Frame w'.s
  life : ∀ p, (w'.prog p).life = (w.prog p).life
  cmd : ∀ p, (w.prog p).pid ≠ 0 → (w'.prog p).cmd = (w.prog p).cmd
  changed : w'.s.changed = w.s.changed
  os : w'.os = w.os

namespace World

variable {w w' w'' : World} {p : ProgPtr} {e : Env} {env : ℕ → Env} {res sig : ℤ}

namespace Still

theorem refl (w : World) : w.Still w := ⟨.refl _, fun _ => rfl, fun _ _ => rfl, rfl, rfl⟩

theorem pid (h : w.Still w') (p : ProgPtr) : (w'.prog p).pid = (w.prog p).pid :=
  congrArg Life.pid (h.life p)

theorem tStart (h : w.Still w') (p : ProgPtr) : (w'.prog p).tStart = (w.prog p).tStart :=
  congrArg Life.tStart (h.life p)

theorem tEnd (h : w.Still w') (p : ProgPtr) : (w'.prog p).tEnd = (w.prog p).tEnd :=
  congrArg Life.tEnd (h.life p)

theorem starts (h : w.Still w') (p : ProgPtr) : (w'.prog p).starts = (w.prog p).starts :=
  congrArg Life.starts (h.life p)

theorem seqIdx (h : w.Still w') (p : ProgPtr) : (w'.prog p).seqIdx = (w.prog p).seqIdx :=
  congrArg Life.seqIdx (h.life p)

theorem seq (h : w.Still w') (p : ProgPtr) : (w'.prog p).seq = (w.prog p).seq :=
  (h.frame.prog p).seq

theorem trans (h : w.Still w') (h' : w'.Still w'') : w.Still w'' where
  frame := h.frame.trans h'.frame
  life p := (h'.life p).trans (h.life p)
  cmd p hp := (h'.cmd p (by rwa [h.pid])).trans (h.cmd p hp)
  changed := h'.changed.trans h.changed
  os := h'.os.trans h.os

/-- It keeps them whatever the system is. -/
theorem with_os (h : w.Still w') (os : OS) : World.Still ⟨w.s, os⟩ ⟨w'.s, os⟩ :=
  ⟨h.frame, h.life, h.cmd, h.changed, rfl⟩

end Still

/-! ## Calls that keep the lives -/

theorem still_modifyProg (w : World) (p : ProgPtr) {f : Program → Program}
    (hf : (w.prog p).Frame (f (w.prog p))) (hlife : (f (w.prog p)).life = (w.prog p).life)
    (hcmd : (w.prog p).pid ≠ 0 → (f (w.prog p)).cmd = (w.prog p).cmd) :
    w.Still (w.modifyProg p f) where
  frame := w.frame_modifyProg p hf
  life q := by
    by_cases hq : q = p
    · rw [hq, modifyProg_prog_self, hlife]
    · rw [modifyProg_prog_of_ne w hq]
  cmd q hpid := by
    by_cases hq : q = p
    · subst hq
      rw [modifyProg_prog_self, hcmd hpid]
    · rw [modifyProg_prog_of_ne w hq]
  changed := rfl
  os := rfl

/-- A call that touches neither the programs nor the children. -/
theorem still_of_eq (hself : w'.s.self = w.s.self) (hprograms : w'.s.programs = w.s.programs)
    (hprog : w'.s.prog = w.s.prog) (hchanged : w'.s.changed = w.s.changed) (hos : w'.os = w.os) :
    w.Still w' where
  frame := ⟨hself, hprograms, fun p => by rw [hprog]; exact .refl _⟩
  life p := by rw [World.prog, hprog, World.prog]
  cmd p _ := by rw [World.prog, hprog, World.prog]
  changed := hchanged
  os := hos

theorem still_addWorkunit (w : World) (ty : WType) (t : ℤ) (q : Option ProgPtr) :
    w.Still (w.addWorkunit ty t q) := still_of_eq rfl rfl rfl rfl rfl

theorem still_addEvent (w : World) (t : ℤ) (ty : EventType) (q : ProgPtr) (status : ℤ) :
    w.Still (w.addEvent t ty q status) := still_of_eq rfl rfl rfl rfl rfl

theorem still_setRunning (w : World) (pid : ℤ) (q : Option ProgPtr) :
    w.Still (w.setRunning pid q) := still_of_eq rfl rfl rfl rfl rfl

theorem still_schedule (w : World) (schedule : Schedule) :
    w.Still { w with s := { w.s with schedule } } := still_of_eq rfl rfl rfl rfl rfl

theorem still_markUsed (w : World) (pos : ℕ) (wu : WorkUnit) (now : ℤ) :
    w.Still (w.markUsed pos wu now) := still_of_eq rfl rfl rfl rfl rfl

theorem still_setMode (w : World) (mode : Mode) : w.Still (w.setMode mode) :=
  still_of_eq rfl rfl rfl rfl rfl

theorem still_setStatus (w : World) (status : Status) : w.Still (w.setStatus status) :=
  still_of_eq rfl rfl rfl rfl rfl

theorem still_setCmd (hpid : (w.prog p).pid = 0) (cmd : Str) : w.Still (w.setCmd p cmd) :=
  w.still_modifyProg p (by constructor <;> simp) rfl fun h => absurd hpid h

theorem still_addSAttrib (w : World) (q : ProgPtr) (k v : Str) : w.Still (w.addSAttrib q k v) :=
  w.still_modifyProg q (by constructor <;> simp) rfl fun _ => rfl

theorem still_setAttribs (w : World) (p q : ProgPtr) (res sig : ℤ) :
    w.Still (w.setAttribs p q res sig) :=
  ((still_addSAttrib ..).trans (still_addSAttrib ..)).trans (still_addSAttrib ..)

theorem still_checkLimits (w : World) (e : Env) (p : ProgPtr) : w.Still (w.checkLimits e p).2 := by
  unfold checkLimits
  dsimp only
  split_ifs
  · exact (still_addEvent ..).trans (still_addEvent ..)
  · exact still_addEvent ..
  · exact still_addEvent ..
  · exact .refl w

theorem still_addDeathEvent (w : World) (now : ℤ) (p : ProgPtr) (status : ℕ) :
    w.Still (w.addDeathEvent now p status) := by
  unfold addDeathEvent
  split_ifs
  · exact still_addEvent ..
  · exact .refl w
  · exact still_addEvent ..

/-! ## Changes of a life -/

/-- The call changes the life of program `p` by `f` and keeps those of the others; the system is
then `os'`, and `n` changes are counted. -/
structure Turns (p : ProgPtr) (f : Life → Life) (os' : OS) (n : ℕ) (w w' : World) : Prop where
  frame : w.s.Frame w'.s
  self : (w'.prog p).life = f (w.prog p).life
  other : ∀ q, q ≠ p → (w'.prog q).life = (w.prog q).life
  changed : w'.s.changed = w.s.changed + n
  os : w'.os = os'

namespace Turns

variable {f g : Life → Life} {os' os'' : OS} {n m : ℕ}

theorem trans (h : Turns p f os' n w w') (h' : Turns p g os'' m w' w'') :
    Turns p (fun l => g (f l)) os'' (n + m) w w'' where
  frame := h.frame.trans h'.frame
  self := by rw [h'.self, h.self]
  other q hq := (h'.other q hq).trans (h.other q hq)
  changed := by rw [h'.changed, h.changed, Nat.add_assoc]
  os := h'.os

theorem still (h : Turns p f os' n w w') (h' : w'.Still w'') : Turns p f os' n w w'' where
  frame := h.frame.trans h'.frame
  self := (h'.life p).trans h.self
  other q hq := (h'.life q).trans (h.other q hq)
  changed := h'.changed.trans h.changed
  os := h'.os.trans h.os

/-- The system before does not matter for it. -/
theorem with_os (h : Turns p f os' n w w') (os : OS) : Turns p f os' n ⟨w.s, os⟩ w' :=
  ⟨h.frame, h.self, h.other, h.changed, h.os⟩

theorem seq (h : Turns p f os' n w w') (q : ProgPtr) : (w'.prog q).seq = (w.prog q).seq :=
  (h.frame.prog q).seq

/-- What `f` keeps of a life is kept of all lives. -/
theorem keeps {α : Type} (h : Turns p f os' n w w') (g : Life → α) (hg : ∀ l, g (f l) = g l)
    (q : ProgPtr) : g (w'.prog q).life = g (w.prog q).life := by
  by_cases hq : q = p
  · rw [hq, h.self, hg]
  · rw [h.other q hq]

end Turns

theorem Still.turns {f : Life → Life} {os' : OS} {n : ℕ} (h : w.Still w')
    (h' : Turns p f os' n w' w'') : Turns p f os' n w w'' where
  frame := h.frame.trans h'.frame
  self := by rw [h'.self, h.life]
  other q hq := (h'.other q hq).trans (h.life q)
  changed := by rw [h'.changed, h.changed]
  os := h'.os

theorem turns_modifyProg (w : World) (p : ProgPtr) {f : Program → Program} {g : Life → Life}
    (hf : (w.prog p).Frame (f (w.prog p))) (hlife : (f (w.prog p)).life = g (w.prog p).life) :
    Turns p g w.os 0 w (w.modifyProg p f) where
  frame := w.frame_modifyProg p hf
  self := by rw [modifyProg_prog_self, hlife]
  other q hq := by rw [modifyProg_prog_of_ne w hq]
  changed := rfl
  os := rfl

theorem turns_setPid (w : World) (p : ProgPtr) : Turns p Life.dropped w.os 0 w (w.setPid p 0) :=
  w.turns_modifyProg p (by constructor <;> simp) rfl

theorem turns_incSeqIdx (w : World) (p : ProgPtr) :
    Turns p (Life.advanced (w.prog p).seq.length) w.os 0 w (w.incSeqIdx p) :=
  w.turns_modifyProg p (by constructor <;> simp) rfl

theorem turns_bury (w : World) (c : Child) (p : ProgPtr) (now : ℤ) :
    Turns p (Life.ended now) w.os 0 w (w.bury c p now) :=
  (w.turns_modifyProg p (by constructor <;> simp) rfl).still (still_setRunning ..)

theorem launched_prog (w : World) (e : Env) (p : ProgPtr) (cmd : Str) (hint : ℤ) :
    (w.launched e p cmd hint).prog p = { w.prog p with
      cmd
      pid := w.os.freshPid hint
      tStart := e.utc
      tEnd := 0
      starts := (w.prog p).starts + 1 } := by
  simp [launched, forked, addEvent, setRunning, setCmd, prog, modifyProg, OS.fork, OS.freshPid,
    OS.pids]

theorem launched_prog_of_ne (w : World) (e : Env) (cmd : Str) (hint : ℤ) {q : ProgPtr}
    (hq : q ≠ p) : (w.launched e p cmd hint).prog q = w.prog q := by
  have hprog : (w.launched e p cmd hint).prog q = (w.setCmd p cmd).prog q :=
    Function.update_of_ne hq ..
  rw [hprog, setCmd, modifyProg_prog_of_ne w hq]

theorem turns_launched (w : World) (e : Env) (p : ProgPtr) (cmd : Str) (hint : ℤ) :
    Turns p (Life.started (w.os.freshPid hint) e.utc) (w.os.fork w.s.self p hint).2 0 w
      (w.launched e p cmd hint) where
  frame := (w.quiet_setCmd p cmd).frame.trans (forked_frame ..)
  self := by rw [launched_prog]; rfl
  other q hq := by rw [launched_prog_of_ne w e cmd hint hq]
  changed := rfl
  os := rfl

theorem launched_cmd (w : World) (e : Env) (p : ProgPtr) (cmd : Str) (hint : ℤ) :
    ((w.launched e p cmd hint).prog p).cmd = cmd := by rw [launched_prog]

/-! ## Starts -/

/-- From `w` to `w'` program `p`, which was idle, starts the next command of its sequence. -/
structure Starts (p : ProgPtr) (e : Env) (w w' : World) : Prop where
  pid : (w.prog p).pid = 0
  startable : e.startable (w.prog p) = true
  turns : ∃ hint, Turns p (Life.started (w.os.freshPid hint) e.utc)
    (w.os.fork w.s.self p hint).2 0 w w'
  cmd : (w.prog p).seq[(w.prog p).seqIdx]? = some (w'.prog p).cmd

theorem Starts.pid_ne (h : w.Starts p e w') : (w'.prog p).pid ≠ 0 := by
  obtain ⟨hint, ht⟩ := h.turns
  have hpid : (w'.prog p).pid = w.os.freshPid hint := congrArg Life.pid ht.self
  rw [hpid]
  exact (w.os.freshPid_pos hint).ne'

theorem starts_launched {cmd : Str} {hint : ℤ} (hpid : (w.prog p).pid = 0)
    (hok : e.startable (w.prog p) = true)
    (hcmd : (w.prog p).seq[(w.prog p).seqIdx]? = some cmd) :
    w.Starts p e (w.launched e p cmd hint) where
  pid := hpid
  startable := hok
  turns := ⟨hint, turns_launched ..⟩
  cmd := by rw [launched_cmd, hcmd]

theorem Starts.still (h : w.Starts p e w') (h' : w'.Still w'') : w.Starts p e w'' where
  pid := h.pid
  startable := h.startable
  turns := by
    obtain ⟨hint, ht⟩ := h.turns
    exact ⟨hint, ht.still h'⟩
  cmd := by rw [h'.cmd p h.pid_ne, h.cmd]

theorem Still.starts_of (h : w.Still w') (h' : w'.Starts p e w'') : w.Starts p e w'' where
  pid := (h.pid p).symm.trans h'.pid
  startable := by
    have hsame := (h.frame.prog p).startable (h.seqIdx p) e
    exact hsame.symm.trans h'.startable
  turns := by
    obtain ⟨hint, ht⟩ := h'.turns
    rw [h.os, h.frame.self] at ht
    exact ⟨hint, h.turns ht⟩
  cmd := by rw [← h'.cmd, h.seq, h.seqIdx]

/-- The program starts once at most, and no life changes else. -/
def Again (env : ℕ → Env) (p : ProgPtr) (w w' : World) : Prop :=
  w.Still w' ∨ ∃ k, w.Starts p (env k) w'

theorem Still.again (h : w.Still w') : Again env p w w' := .inl h

theorem Still.again_of (h : w.Still w') (h' : Again env p w' w'') : Again env p w w'' := by
  rcases h' with h' | ⟨k, h'⟩
  · exact .inl (h.trans h')
  · exact .inr ⟨k, h.starts_of h'⟩

/-- A program that runs is not started. -/
theorem Again.trans (h : Again env p w w') (h' : Again env p w' w'') : Again env p w w'' := by
  rcases h with h | ⟨k, h⟩
  · exact h.again_of h'
  · rcases h' with h' | ⟨k', h'⟩
    · exact .inr ⟨k, h.still h'⟩
    · exact absurd h'.pid h.pid_ne

theorem Again.other (h : Again env p w w') {q : ProgPtr} (hq : q ≠ p) :
    (w'.prog q).life = (w.prog q).life := by
  rcases h with h | ⟨_, h⟩
  · exact h.life q
  · obtain ⟨hint, ht⟩ := h.turns
    exact ht.other q hq

theorem Again.changed (h : Again env p w w') : w'.s.changed = w.s.changed := by
  rcases h with h | ⟨_, h⟩
  · exact h.changed
  · obtain ⟨hint, ht⟩ := h.turns
    exact ht.changed

theorem again_run (h : w.run (env 0) p = .ok w') : Again env p w w' := by
  cases ran_of_run h with
  | running => exact .inl (.refl w)
  | missing hpid => exact .inl ((still_setCmd hpid _).trans (still_addWorkunit ..))
  | refused hpid => exact .inl (still_setCmd hpid _)
  | launched hpid hok hcmd => exact .inr ⟨0, starts_launched hpid hok hcmd⟩

theorem again_doAction {lim : Bool} {a : Action}
    (h : w.doAction (env 0) p res sig lim a = .ok w') : Again env p w w' := by
  cases acted_of_doAction h with
  | direct _ _ _ _ hrun => exact (still_setAttribs ..).again_of (again_run hrun)
  | queued => exact ((still_setAttribs ..).trans (still_addWorkunit ..)).again
  | passed => exact (still_setAttribs ..).again

theorem again_doActions {lim : Bool} {al : List Action}
    (h : w.doActions p res sig lim al env = .ok w') : Again env p w w' := by
  induction al generalizing env w with
  | nil => cases h; exact .inl (.refl _)
  | cons a al ih =>
    rw [doActions] at h
    split at h
    · next w₁ hw₁ =>
      have hrest : Again env p w₁ w' := by
        rcases ih h with h' | ⟨k, h'⟩
        · exact .inl h'
        · exact .inr ⟨k + 1, h'⟩
      exact (again_doAction hw₁).trans hrest
    · cases h

/-- `what_next` takes the program one command further and may start it. -/
theorem again_whatNext (hstop : (w.prog p).stopMode = 0) (h : w.whatNext env res sig p = .ok w') :
    0 < (w.prog p).seq.length ∧ Again env p (w.incSeqIdx p) w' := by
  cases followed_of_whatNext h with
  | stopped hstop' => exact absurd (hstop'.symm.trans hstop) (by decide)
  | next _ hlen => exact ⟨hlen, (still_addWorkunit ..).again⟩
  | none _ hlen => exact ⟨hlen, .inl (.refl _)⟩
  | actions _ hlen _ _ hdo =>
    refine ⟨hlen, (still_checkLimits _ (env 0) p).again_of ?_⟩
    rcases again_doActions hdo with h' | ⟨k, h'⟩
    · exact .inl h'
    · exact .inr ⟨k + 1, h'⟩

/-- A signal changes nothing here but the system. -/
theorem still_sendSignal (w : World) (e : Env) (p : ProgPtr) (sig : ℤ) (cause : Cause) :
    w.Still (w.sendSignal e p sig cause).2 ∨
    (w.prog p).pid ≠ 0 ∧ (w.sendSignal e p sig cause).2 =
      ⟨w.s, w.os.kill w.s.self p (w.prog p).pid sig cause e.killOk⟩ := by
  unfold sendSignal
  by_cases hpid : (w.prog p).pid = 0
  · rw [if_pos hpid]
    exact .inl (.refl w)
  · rw [if_neg hpid]
    exact .inr ⟨hpid, rfl⟩

/-- The dead child is taken away and its program goes on. -/
theorem again_handleDeath {now : ℤ} {c : Child} (hstop : (w.prog p).stopMode = 0)
    (h : w.handleDeath env now c p = .ok w') : 0 < (w.prog p).seq.length ∧ ∃ w₁ w₂,
      Turns p (fun l => (l.ended now).advanced (w.prog p).seq.length) w.os 0 w w₁ ∧
      Again env p w₁ w₂ ∧ w' = w₂.incChanged := by
  obtain ⟨w₂, hw₂, rfl⟩ := handleDeath_eq_ok h
  set w₀ := (w.bury c p now).addDeathEvent now p (c.status.getD 0)
  have hbury : Turns p (Life.ended now) w.os 0 w w₀ :=
    (turns_bury w c p now).still (still_addDeathEvent ..)
  have hstop₀ : (w₀.prog p).stopMode = 0 := by
    rcases (hbury.frame.prog p).stopMode with h0 | h0
    · exact h0.trans hstop
    · exact h0
  obtain ⟨hlen, hagain⟩ := again_whatNext hstop₀ hw₂
  have hadv := turns_incSeqIdx w₀ p
  rw [hbury.os, hbury.seq] at hadv
  rw [hbury.seq] at hlen
  exact ⟨hlen, _, _, hbury.trans hadv, hagain, rfl⟩

end World

/-! ## The step of the thread -/

namespace Thread

variable {t t' : Thread} {os os' : OS} {e : Env} {env : ℕ → Env} {w' : World}

/-- What a step of the thread does to the programs. -/
inductive Deed (env : ℕ → Env) (t : Thread) (os : OS) (w' : World) : Prop
  | idle (hreap : t.reaps (env 0) os = none) (h : World.Still ⟨t.s, os⟩ w')
  | signal {i : ℕ} {p : ProgPtr} {pid sig : ℤ} {cause : Cause} {ok : Bool}
      (hreap : t.reaps (env 0) os = none) (h : World.Still ⟨t.s, os.kill i p pid sig cause ok⟩ w')
  | expire {now : ℤ} {pri : ℕ} {p : ProgPtr} {sig : ℤ} (hpc : t.pc = .limits now pri)
      (hp : t.s.programs[pri]? = some p) (hlimit : (t.s.prog p).checkRunlimit (env 0).utc = true)
      (h : World.Turns p Life.dropped
        (os.kill t.s.self p (t.s.prog p).pid sig .limit (env 0).killOk) 0 ⟨t.s, os⟩ w')
  | start {p : ProgPtr} (hat : t.AtStart p) (h : World.Starts p (env 0) ⟨t.s, os⟩ w')
  | death {now : ℤ} {pri : ℕ} {pid : ℤ} {c : Child} {p : ProgPtr} {w₁ w₂ : World}
      (hpc : t.pc = .poll now pri pid) (hreap : t.reaps (env 0) os = some c)
      (hp : t.s.running c.pid = some p) (hlen : 0 < (t.s.prog p).seq.length)
      (hbury : World.Turns p (fun l => (l.ended now).advanced (t.s.prog p).seq.length)
        (os.reap t.s.self c (some p) (t.s.prog p).pid) 0 ⟨t.s, os⟩ w₁)
      (hagain : World.Again (fun i => env (i + 1)) p w₁ w₂) (h : w' = w₂.incChanged)
  | bury {c : Child} {p : ProgPtr} (hloop : t.inLoop = false)
      (hreap : t.reaps (env 0) os = some c) (hp : t.s.running c.pid = some p)
      (h : World.Turns p (Life.ended t.now)
        (os.reap t.s.self c (some p) (t.s.prog p).pid) 0 ⟨t.s, os⟩ w')
  | stray {c : Child} (hreap : t.reaps (env 0) os = some c) (hp : t.s.running c.pid = none)
      (h : World.Still ⟨t.s, os.reap t.s.self c none 0⟩ w')

theorem deed_sendSignal {p : ProgPtr} {w : World} (hreap : t.reaps (env 0) os = none)
    (h : World.Still ⟨t.s, os⟩ w) (e : Env) (sig : ℤ) (cause : Cause)
    (h' : (w.sendSignal e p sig cause).2.Still w') : t.Deed env os w' := by
  rcases w.still_sendSignal e p sig cause with hs | ⟨-, hs⟩
  · exact .idle hreap ((h.trans hs).trans h')
  · rw [hs, show w.os = os from h.os] at h'
    exact .signal hreap ((h.with_os _).trans h')

theorem deed_handleUnit {now : ℤ} {wui : Iter} {wu : WorkUnit} (hpc : t.pc = .firstPass now wui)
    (hwu : t.s.schedule.units[wui.pos]? = some wu)
    (h : World.handleUnit (env 0) now wui.pos wu ⟨t.s, os⟩ = .ok w') : t.Deed env os w' := by
  have hreap : t.reaps (env 0) os = none := by simp [reaps, waitsFor, hpc]
  cases World.handles_of_handleUnit h with
  | later => exact .idle hreap (.refl _)
  | exit => exact .idle hreap ((World.still_markUsed ..).trans (World.still_setMode ..))
  | @run p w hty hdue hp hrun =>
    have hs : w.Still ((w.markUsed wui.pos wu now).setRunning
        ((w.markUsed wui.pos wu now).prog p).pid (some p)) :=
      (World.still_markUsed ..).trans (World.still_setRunning ..)
    have hagain : World.Again (fun _ => env 0) p ⟨t.s, os⟩ w := World.again_run hrun
    rcases hagain with hstill | ⟨_, hstart⟩
    · exact .idle hreap (hstill.trans hs)
    · exact .start ⟨now, wui, wu, hpc, hwu, hty, hdue, hp⟩ (hstart.still hs)
  | @stop p w₁ hty hdue hp hw =>
    have hstill : World.Still ⟨t.s, os⟩ w₁ := by
      rw [hw]
      exact (World.still_modifyProg _ p (by constructor <;> simp) rfl fun _ => rfl).trans
        (World.still_addEvent ..)
    exact deed_sendSignal hreap hstill _ _ _ (World.still_markUsed ..)
  | nostart => exact .idle hreap (World.still_markUsed ..)

theorem deed_handleLimit {now : ℤ} {pri : ℕ} {p : ProgPtr} (hpc : t.pc = .limits now pri)
    (hp : t.s.programs[pri]? = some p) :
    t.Deed env os (World.handleLimit (env 0) now p ⟨t.s, os⟩) := by
  unfold World.handleLimit
  by_cases hlim : (t.s.prog p).checkRunlimit (env 0).utc = true
  case neg =>
    rw [if_neg (show ¬(World.prog ⟨t.s, os⟩ p).checkRunlimit _ = true from hlim)]
    exact .idle (by simp [reaps, waitsFor, hpc]) (.refl _)
  rw [if_pos (show (World.prog ⟨t.s, os⟩ p).checkRunlimit _ = true from hlim)]
  have hpid : (t.s.prog p).pid ≠ 0 := by
    simp only [Program.checkRunlimit, decide_eq_true_eq] at hlim
    exact hlim.1
  have hsend : World.sendSignal ⟨t.s, os⟩ (env 0) p (t.s.prog p).stopSig .limit =
      (if (env 0).killOk then 0 else -1, ⟨t.s,
        os.kill t.s.self p (t.s.prog p).pid (t.s.prog p).stopSig .limit (env 0).killOk⟩) :=
    if_neg hpid
  dsimp only [World.prog]
  rw [hsend]
  have hturns := (World.turns_setPid ⟨t.s, os.kill t.s.self p (t.s.prog p).pid (t.s.prog p).stopSig
    .limit (env 0).killOk⟩ p).still (World.still_addEvent _ now .limit p 0)
  exact .expire hpc hp hlim (hturns.with_os os)

/-- Every step of a scheduler thread does one of these deeds. -/
theorem deed_of_step (hstop : ∀ p, (t.s.prog p).stopMode = 0)
    (h : t.step env os = .ok (t', os')) : t.Deed env os ⟨t'.s, os'⟩ := by
  obtain ⟨pc, w, hm, rfl, rfl⟩ := step_moves h
  cases hm with
  | jump hj => exact .idle (reaps_of_waitsFor hj.waitsFor _) (.refl _)
  | leave hpc => exact .idle (by simp [reaps, waitsFor, hpc]) (World.still_setStatus ..)
  | enter hpc => exact .idle (by simp [reaps, waitsFor, hpc]) (World.still_schedule ..)
  | unit hpc hwu hw => exact deed_handleUnit hpc hwu hw
  | erase hpc => exact .idle (by simp [reaps, waitsFor, hpc]) (World.still_schedule ..)
  | limit hpc hp => exact deed_handleLimit hpc hp
  | @death now pid pri c p w hpc hreap hp hw =>
    obtain ⟨hlen, w₁, w₂, hbury, hagain, h⟩ :=
      World.again_handleDeath (show (World.prog ⟨t.s, _⟩ p).stopMode = 0 from hstop p) hw
    exact .death hpc hreap hp hlen (hbury.with_os os) hagain h
  | alive hpc hreap => exact .idle hreap (.refl _)
  | stray hreap hp => exact .stray hreap hp (.refl _)
  | @bury _ _ _ c p hwait hreap hp =>
    have hturns :=
      World.turns_bury ⟨t.s, os.reap t.s.self c (some p) (t.s.prog p).pid⟩ c p t.now
    exact .bury hwait.inLoop hreap hp (hturns.with_os os)
  | nobody hwait hreap => exact .idle hreap (.refl _)
  | stop hpc =>
    exact deed_sendSignal (by simp [reaps, waitsFor, hpc]) (.refl _) _ _ _ (.refl _)
  | stopped hpc => exact .idle (by simp [reaps, waitsFor, hpc]) (World.still_setStatus ..)
  | kill hpc =>
    exact deed_sendSignal (by simp [reaps, waitsFor, hpc]) (.refl _) _ _ _ (.refl _)
  | finish hfin =>
    exact .idle (reaps_of_waitsFor (waitsFor_of_finishing hfin) _) (World.still_setStatus ..)

end Thread

/-! ## The step of the process -/

namespace Process

variable {σ σ' : Process} {l : Label}

/-- The programs as their constructors leave them. -/
def Newborn (σ : Process) : Prop := ∀ i p, ((σ.thread i).s.prog p).life = ⟨0, 0, 0, 0, 0⟩

theorem configured_newborn {config : List SchedulerConfig}
    (h : ∀ c ∈ config, ∀ p ∈ c.programs, p.life = ⟨0, 0, 0, 0, 0⟩) :
    (Process.configured config).Newborn := by
  intro i p
  show ((config.getD i {}).programs.getD p { name := [] }).life = _
  have hprograms : ∀ q ∈ (config.getD i {}).programs, q.life = ⟨0, 0, 0, 0, 0⟩ := by
    rw [List.getD_eq_getElem?_getD]
    cases hc : config[i]? with
    | none => simp
    | some c => exact h c (List.mem_of_getElem? hc)
  rw [List.getD_eq_getElem?_getD]
  cases hq : (config.getD i {}).programs[p]? with
  | none => rfl
  | some q => exact hprograms q (List.mem_of_getElem? hq)

theorem sleeper_newborn : (Process.configured [.sleeper]).Newborn :=
  configured_newborn (List.forall_mem_singleton.2 (by simp [SchedulerConfig.sleeper, Program.life]))

/-- A command keeps the lives of all programs. -/
theorem still_of_command {queues : Prop} {s s' : Scheduler} (h : s.Command queues s') (os : OS) :
    World.Still ⟨s, os⟩ ⟨s', os⟩ := by
  cases h with
  | none => exact .refl _
  | unit => exact World.still_addWorkunit ⟨s, os⟩ ..
  | off => exact World.still_setMode ⟨s, os⟩ .off

/-- A step of the process is a deed of scheduler `i`, or none of its programs takes part in it. -/
theorem Regular.deed (hσ : σ.Regular) (h : machine.step l σ = .ok σ') {i : ℕ} (hi : i < σ.count) :
    (∃ env, l = .thread i env ∧ (σ.thread i).step env σ.os = .ok (σ'.thread i, σ'.os) ∧
      (σ.thread i).Deed env σ.os ⟨(σ'.thread i).s, σ'.os⟩) ∨
    (∀ env, l ≠ .thread i env) ∧
      World.Still ⟨(σ.thread i).s, σ'.os⟩ ⟨(σ'.thread i).s, σ'.os⟩ := by
  rcases thread_of_step h i with ⟨env, t, os, rfl, -, hstep, rfl, rfl⟩ | ⟨hl, s, hs, he⟩
  · exact .inl ⟨env, rfl, hstep, Thread.deed_of_step (hσ.stopMode i hi) hstep⟩
  · refine .inr ⟨fun env hl' => ?_, ?_⟩
    · have := hl env hl'
      omega
    · rw [he]
      exact still_of_command hs _

/-- No call is recorded but in the steps of the schedulers. -/
theorem trace_of_step (h : machine.step l σ = .ok σ')
    (hl : ∀ i env, l = .thread i env → σ.count ≤ i) : σ'.os.trace = σ.os.trace := by
  cases l with
  | thread i env =>
    simp only [machine, step] at h
    rw [if_neg (by have := hl i env rfl; omega)] at h
    cases h
    rfl
  | start i name now =>
    cases h
    exact congrArg OS.trace (addNamed_os ..)
  | stop i name now =>
    cases h
    exact congrArg OS.trace (addNamed_os ..)
  | _ =>
    cases h
    rfl

end Process

end Peter
