import Peter.Commands
import Peter.Config
import Peter.Orders

/-!
# The PID file

The loop of `main`: it polls the schedulers, writes the PID file when one of them has changed, turns
all of them off after a signal, and ends when all are ready.  A scheduler counts a change where its
main loop has reaped a process, and there only: the forks of the first pass, the `maxruntime` limit
and the shutdown change pids too.  While no such step, no counter that wraps and no failed write
loses a change (`Noticed`), the PID file has the pids of all programs whenever a poll finds nothing
(`pids_recorded`).
-/

namespace Peter

/-! ## The main loop -/

/-- What the system answers in one round of the loop: the clock, and whether the PID file opens. -/
structure MainEnv where
  utc : ℤ := 0
  canOpen : Bool := true

/-- PETeR with its main thread.  `pidfile` is the tree that was last written. -/
structure Main where
  process : Process
  ctrlC : Bool := false
  pidfile : Option XMLNode := none

inductive MainLabel
  /-- A step of the schedulers, or something that happens to them. -/
  | other (l : Label)
  /-- `ctrl_c_handler`. -/
  | signal
  /-- One round of the main loop. -/
  | iterate (e : MainEnv)

namespace Process

/-- `get_changed`, of an `unsigned int`. -/
def getChanged (σ : Process) (i : ℕ) : ℕ × Process :=
  let t := σ.thread i
  (t.s.changed % 4294967296, σ.put i { t with s := { t.s with changed := 0 } } σ.os)

/-- The loop over the schedulers that is left at the first one that has changed. -/
def poll : List ℕ → Process → Bool × Process
  | [], σ => (false, σ)
  | i :: is, σ =>
    let (n, σ) := σ.getChanged i
    if n > 0 then (true, σ) else poll is σ

/-- What is written to the PID file: the answers of all schedulers to `info`. -/
def pidTree (utc : ℤ) (σ : Process) : XMLNode :=
  (List.range σ.count).foldl (fun res i =>
    res.addChild (Session.command { utc } (str "info") i (str "info") { process := σ }).1)
    { name := str "peter" }

end Process

namespace Main

/-- One round of the main loop, which ends the process when all schedulers are ready. -/
def iterate (e : MainEnv) (σ : Main) : Except Halt Main :=
  let (updatePidsfile, π) := σ.process.poll (List.range σ.process.count)
  let pidfile := if updatePidsfile && e.canOpen then some (π.pidTree e.utc) else σ.pidfile
  let π := if σ.ctrlC then (List.range π.count).foldl Process.setOff π else π
  if (List.range π.count).all fun i => (π.thread i).s.status = .ready then .error (.exited 0)
  else .ok { process := π, ctrlC := false, pidfile }

def step : MainLabel → Main → Except Halt Main
  | .other l, σ => match machine.step l σ.process with
    | .ok process => .ok { σ with process }
    | .error h => .error h
  | .signal, σ => .ok { σ with ctrlC := true }
  | .iterate e, σ => σ.iterate e

end Main

/-- PETeR with its main loop, as a transition system. -/
def mainLoop : Transition.System Main MainLabel Halt := ⟨Main.step⟩

/-! ## What the file says -/

/-- The pid in the tree for program `m` of scheduler `i`. -/
def recordedPid (doc : XMLNode) (i m : ℕ) : Option Str := do
  let scheduler ← doc.children[i]?
  let program ← scheduler.children[m]?
  program.attribute? (str "pid")

namespace Main

/-- The schedulers and the main thread before they start. -/
structure Starts (σ : Main) : Prop where
  initial : σ.process.Initial
  changed : ∀ i < σ.process.count, (σ.process.thread i).s.changed = 1
  ctrlC : σ.ctrlC = false
  pidfile : σ.pidfile = none

/-- The file has the pid of every program. -/
def Recorded (σ : Main) : Prop := ∀ i < σ.process.count, ∀ (m : ℕ) (p : ProgPtr),
  (σ.process.thread i).s.programs[m]? = some p →
    (σ.pidfile.bind fun doc => recordedPid doc i m) =
      some (toStr ((σ.process.thread i).s.prog p).pid)

/-- No scheduler is inside a pass. -/
def AtRest (σ : Main) : Prop := ∀ i < σ.process.count,
  (σ.process.thread i).pc = .loop ∨ (σ.process.thread i).inLoop = false

/-- When `main` polls all schedulers between their passes and none has changed, the file has the
pids. -/
def Fresh (σ : Main) : Prop :=
  σ.AtRest → (σ.process.poll (List.range σ.process.count)).1 = false → σ.Recorded

end Main

/-! ## When it says so -/

namespace Process

/-- A poll of all schedulers would find nothing. -/
def Quiet (σ : Process) : Prop := ∀ i < σ.count, (σ.thread i).s.changed % 4294967296 = 0

end Process

/-- The step changes a pid where `changed` is not raised: it forks for a start unit, drops a pid for
`maxruntime`, or reaps in the shutdown. -/
def Thread.Unnoticed (t : Thread) (e : Env) (os : OS) : Prop :=
  (∃ p, t.AtStart p ∧ (t.s.prog p).pid = 0 ∧ e.startable (t.s.prog p)) ∨
  (∃ now pri p, t.pc = .limits now pri ∧ t.s.programs[pri]? = some p ∧
    (t.s.prog p).checkRunlimit e.utc) ∨
  t.inLoop = false ∧ ∃ c p, t.reaps e os = some c ∧ t.s.running c.pid = some p ∧
    (t.s.prog p).pid ≠ 0

/-- The step loses no change: one that goes unnoticed is made when there is something to poll, and
neither a counter that wraps nor a PID file that does not open leaves nothing to poll. -/
def Main.Noticed (σ : Main) : MainLabel → Main → Prop
  | .other (.thread i env), _ => i < σ.process.count →
    (σ.process.Quiet → ¬(σ.process.thread i).Unnoticed (env 0) σ.process.os) ∧
    ∀ p, (σ.process.thread i).Follows (env 0) σ.process.os p →
      (∀ j < σ.process.count, j ≠ i → (σ.process.thread j).s.changed % 4294967296 = 0) →
      (σ.process.thread i).s.changed % 4294967296 ≠ 4294967295
  | .iterate e, _ => (σ.process.poll (List.range σ.process.count)).1 = true → e.canOpen = false →
    ¬(σ.process.poll (List.range σ.process.count)).2.Quiet
  | _, _ => True

/-! ## The tree -/

theorem children_foldl_addChild {α : Type} (f : α → XMLNode) (l : List α) (x : XMLNode) :
    (l.foldl (fun res a => res.addChild (f a)) x).children = x.children ++ l.map f := by
  induction l generalizing x with
  | nil => simp
  | cons a l ih => rw [List.foldl_cons, ih]; simp [XMLNode.addChild]

theorem xmlInfo_pid (utc : ℤ) (p : Program) :
    (p.xmlInfo utc).attribute? (str "pid") = some (toStr p.pid) := by
  have hname : str "name" ≠ str "pid" := by decide
  unfold Program.xmlInfo XMLNode.attribute?
  split_ifs <;> simp [XMLNode.addAttribute, hname]

/-- The tree has the pids of the programs at the time. -/
theorem Process.recordedPid_pidTree {σ : Process} {i m : ℕ} {p : ProgPtr} (utc : ℤ)
    (hi : i < σ.count) (hp : (σ.thread i).s.programs[m]? = some p) :
    recordedPid (σ.pidTree utc) i m = some (toStr ((σ.thread i).s.prog p).pid) := by
  have hscheduler : (σ.pidTree utc).children[i]? =
      some (Session.command { utc } (str "info") i (str "info") { process := σ }).1 := by
    rw [pidTree, children_foldl_addChild]
    simp [hi]
  have hprogram : (Session.command { utc } (str "info") i (str "info")
      { process := σ }).1.children[m]? = some (((σ.thread i).s.prog p).xmlInfo utc) := by
    rw [Session.command, if_pos rfl]
    dsimp only
    rw [children_foldl_addChild]
    simp [hp]
  rw [recordedPid, hscheduler, Option.bind_eq_bind, Option.bind_some, hprogram]
  exact xmlInfo_pid utc _

/-! ## What a poll and a signal leave alone -/

namespace Process

variable {σ σ' σ'' : Process} {i : ℕ}

/-- The programs and all that the books keep are the same. -/
structure Unchanged (σ σ' : Process) : Prop where
  frame : σ.Frame σ'
  books : σ'.books = σ.books

namespace Unchanged

theorem refl (σ : Process) : σ.Unchanged σ := ⟨.refl σ, rfl⟩

theorem trans (h : σ.Unchanged σ') (h' : σ'.Unchanged σ'') : σ.Unchanged σ'' where
  frame := h.frame.trans h'.frame
  books := h'.books.trans h.books

theorem regular (h : σ.Unchanged σ') (hσ : σ.Regular) : σ'.Regular := by
  refine hσ.of_frame h.frame ?_
  rw [h.books, h.frame.count]
  exact hσ.homed

theorem pid (h : σ.Unchanged σ') (i : ℕ) (p : ProgPtr) :
    ((σ'.thread i).s.prog p).pid = ((σ.thread i).s.prog p).pid :=
  congrFun (congrArg Books.slot h.books) (i, p)

end Unchanged

theorem getChanged_unchanged (σ : Process) (i : ℕ) : σ.Unchanged (σ.getChanged i).2 := by
  have hquiet : World.Quiet ⟨(σ.thread i).s, σ.os⟩
      ⟨{ (σ.thread i).s with changed := 0 }, σ.os⟩ :=
    ⟨⟨rfl, rfl, fun _ => .refl _⟩, rfl, rfl, rfl, fun _ => rfl, fun _ => rfl⟩
  obtain ⟨hframe, hbooks⟩ := σ.put_quiet i hquiet
  exact ⟨hframe, hbooks⟩

theorem poll_unchanged (σ : Process) (is : List ℕ) : σ.Unchanged (σ.poll is).2 := by
  induction is generalizing σ with
  | nil => exact .refl σ
  | cons i is ih =>
    rw [poll]
    dsimp only
    split_ifs
    · exact σ.getChanged_unchanged i
    · exact (σ.getChanged_unchanged i).trans (ih _)

theorem setOff_unchanged (σ : Process) (i : ℕ) : σ.Unchanged (σ.setOff i) := by
  obtain ⟨hframe, hbooks⟩ := σ.put_quiet i (World.quiet_setMode ⟨(σ.thread i).s, σ.os⟩ .off)
  exact ⟨hframe, hbooks⟩

theorem setOff_changed (σ : Process) (i j : ℕ) :
    ((σ.setOff i).thread j).s.changed = (σ.thread j).s.changed := by
  by_cases hj : j = i
  · subst hj
    simp [setOff, put]
  · simp [setOff, put, Function.update_of_ne hj]

theorem foldl_setOff (σ : Process) (is : List ℕ) : σ.Unchanged (is.foldl setOff σ) ∧
    ∀ j, ((is.foldl setOff σ).thread j).s.changed = (σ.thread j).s.changed := by
  induction is generalizing σ with
  | nil => exact ⟨.refl σ, fun _ => rfl⟩
  | cons i is ih =>
    obtain ⟨hsame, hchanged⟩ := ih (σ.setOff i)
    exact ⟨(σ.setOff_unchanged i).trans hsame, fun j => (hchanged j).trans (σ.setOff_changed i j)⟩

/-- A scheduler that is read and has not changed is as before. -/
theorem getChanged_changed (h : (σ.getChanged i).1 = 0) (j : ℕ) :
    ((σ.getChanged i).2.thread j).s.changed % 4294967296 =
      (σ.thread j).s.changed % 4294967296 := by
  by_cases hj : j = i
  · subst hj
    simpa [getChanged, put] using h.symm
  · simp [getChanged, put, Function.update_of_ne hj]

theorem poll_eq_false_iff {is : List ℕ} :
    (σ.poll is).1 = false ↔ ∀ i ∈ is, (σ.thread i).s.changed % 4294967296 = 0 := by
  induction is generalizing σ with
  | nil => simp [poll]
  | cons i is ih =>
    rw [poll, List.forall_mem_cons]
    dsimp only
    by_cases hi : (σ.getChanged i).1 = 0
    · rw [if_neg (by omega), ih]
      simp only [getChanged_changed hi]
      exact (and_iff_right hi).symm
    · rw [if_pos (by omega)]
      exact ⟨nofun, fun h => absurd h.1 hi⟩

theorem poll_range_eq_false_iff : (σ.poll (List.range σ.count)).1 = false ↔ σ.Quiet := by
  simp only [poll_eq_false_iff, List.mem_range, Quiet]

end Process

/-! ## What a step of a scheduler changes -/

namespace Thread

variable {t : Thread} {os : OS} {env : ℕ → Env} {w' : World}

/-- A step counts a change where a process is reaped in the main loop.  Another one that does not go
unnoticed keeps all pids. -/
theorem Deed.changed (h : t.Deed env os w') :
    (∃ p, t.Follows (env 0) os p ∧ w'.s.changed = t.s.changed + 1) ∨
      w'.s.changed = t.s.changed ∧
        (¬t.Unnoticed (env 0) os → ∀ p, (w'.prog p).pid = (t.s.prog p).pid) := by
  cases h with
  | idle hreap h => exact .inr ⟨h.changed, fun _ => h.pid⟩
  | signal hreap h => exact .inr ⟨h.changed, fun _ => h.pid⟩
  | @expire now pri p sig hpc hp hlimit h =>
    refine .inr ⟨h.changed, fun hno => ?_⟩
    exact absurd (.inr (.inl ⟨now, pri, p, hpc, hp, hlimit⟩)) hno
  | @start p hat h =>
    obtain ⟨hint, ht⟩ := h.turns
    refine .inr ⟨ht.changed, fun hno => ?_⟩
    exact absurd (.inl ⟨p, hat, h.pid, h.startable⟩) hno
  | @death now pri pid c p w₁ w₂ hpc hreap hp hlen hbury hagain h =>
    refine .inl ⟨p, ⟨by simp [inLoop, hpc], c, hreap, hp⟩, ?_⟩
    rw [h]
    exact congrArg (· + 1) (hagain.changed.trans hbury.changed)
  | @bury c p hloop hreap hp h =>
    refine .inr ⟨h.changed, fun hno q => ?_⟩
    by_cases hq : q = p
    · subst hq
      have hpid : (t.s.prog q).pid = 0 := by
        by_contra hpid
        exact hno (.inr (.inr ⟨hloop, c, q, hreap, hp, hpid⟩))
      exact (congrArg Life.pid h.self).trans hpid.symm
    · exact congrArg Life.pid (h.other q hq)
  | stray hreap hp h => exact .inr ⟨h.changed, fun _ => h.pid⟩

end Thread

namespace Process

variable {σ σ' : Process} {l : Label} {i : ℕ}

theorem Regular.changed (hσ : σ.Regular) (h : machine.step l σ = .ok σ') (hi : i < σ.count) :
    (∃ env p, l = .thread i env ∧ (σ.thread i).Follows (env 0) σ.os p ∧
      (σ'.thread i).s.changed = (σ.thread i).s.changed + 1) ∨
    (σ'.thread i).s.changed = (σ.thread i).s.changed ∧
      ((∀ env, l = .thread i env → ¬(σ.thread i).Unnoticed (env 0) σ.os) →
        ∀ p, ((σ'.thread i).s.prog p).pid = ((σ.thread i).s.prog p).pid) := by
  rcases hσ.deed h hi with ⟨env, rfl, -, hdeed⟩ | ⟨-, hstill⟩
  · rcases hdeed.changed with ⟨p, hp, hchanged⟩ | ⟨hchanged, hpid⟩
    · exact .inl ⟨env, p, rfl, hp, hchanged⟩
    · exact .inr ⟨hchanged, fun hno => hpid (hno env rfl)⟩
  · exact .inr ⟨hstill.changed, fun _ => hstill.pid⟩

end Process

/-! ## Runs -/

namespace Main

variable {σ₀ σ σ' : Main} {l : MainLabel} {ls : List MainLabel}

/-- The file has the pids unless a poll would find something. -/
structure Current (σ : Main) : Prop where
  regular : σ.process.Regular
  recorded : σ.process.Quiet → σ.Recorded

theorem Recorded.of_eq (h : σ.Recorded) (hcount : σ'.process.count = σ.process.count)
    (hprograms : ∀ i, (σ'.process.thread i).s.programs = (σ.process.thread i).s.programs)
    (hpid : ∀ i < σ.process.count, ∀ p,
      ((σ'.process.thread i).s.prog p).pid = ((σ.process.thread i).s.prog p).pid)
    (hfile : σ'.pidfile = σ.pidfile) : σ'.Recorded := by
  intro i hi m p hp
  rw [hcount] at hi
  rw [hprograms] at hp
  rw [hfile, hpid i hi, h i hi m p hp]

theorem recorded_of_unchanged {π : Process} (h : σ.Recorded) (hsame : σ.process.Unchanged π)
    (ctrlC : Bool) : Recorded ⟨π, ctrlC, σ.pidfile⟩ :=
  h.of_eq hsame.frame.count (fun i => (hsame.frame.scheduler i).programs)
    (fun i _ => hsame.pid i) rfl

/-- A file that was just written has all pids. -/
theorem recorded_pidTree (π : Process) (utc : ℤ) (ctrlC : Bool) :
    Recorded ⟨π, ctrlC, some (π.pidTree utc)⟩ :=
  fun _ hi _ _ hp => Process.recordedPid_pidTree utc hi hp

/-- A step of the schedulers that leaves nothing to poll was made with nothing to poll, and keeps
all pids. -/
theorem Current.other {l : Label} {π : Process} (hσ : σ.Current)
    (h : machine.step l σ.process = .ok π) (hl : σ.Noticed (.other l) ⟨π, σ.ctrlC, σ.pidfile⟩) :
    Current ⟨π, σ.ctrlC, σ.pidfile⟩ := by
  have hframe := hσ.regular.frame_of_step h
  refine ⟨hσ.regular.step h, fun hquiet => ?_⟩
  have hkeeps : ∀ i < σ.process.count, (π.thread i).s.changed =
      (σ.process.thread i).s.changed ∧
        ((∀ env, l = .thread i env → ¬(σ.process.thread i).Unnoticed (env 0) σ.process.os) →
          ∀ p, ((π.thread i).s.prog p).pid = ((σ.process.thread i).s.prog p).pid) := by
    intro i hi
    rcases hσ.regular.changed h hi with ⟨env, p, rfl, hp, hchanged⟩ | hkeep
    · -- the counter was raised and is 0 all the same
      have hzero := hquiet i (hframe.count ▸ hi)
      have hothers : ∀ j < σ.process.count, j ≠ i →
          (σ.process.thread j).s.changed % 4294967296 = 0 := by
        intro j hj hji
        have hsame : (π.thread j).s.changed = (σ.process.thread j).s.changed := by
          rcases hσ.regular.changed h hj with ⟨env', q, he, -, -⟩ | ⟨hsame, -⟩
          · cases he
            exact absurd rfl hji
          · exact hsame
        exact hsame ▸ hquiet j (hframe.count ▸ hj)
      have hmax := (hl hi).2 p hp hothers
      simp only [hchanged] at hzero
      omega
    · exact hkeep
  have hquiet₀ : σ.process.Quiet := fun i hi =>
    (hkeeps i hi).1 ▸ hquiet i (hframe.count ▸ hi)
  refine (hσ.recorded hquiet₀).of_eq hframe.count
    (fun i => (hframe.scheduler i).programs) (fun i hi => (hkeeps i hi).2 ?_) rfl
  rintro env rfl
  exact (hl hi).1 hquiet₀

/-- A round that does not end the process: it polls, writes, and turns schedulers off. -/
theorem iterate_eq_ok {e : MainEnv} (h : σ.iterate e = .ok σ') :
    let r := σ.process.poll (List.range σ.process.count)
    ∃ π, r.2.Unchanged π ∧ (∀ j, (π.thread j).s.changed = (r.2.thread j).s.changed) ∧
      σ' = ⟨π, false, if r.1 && e.canOpen then some (r.2.pidTree e.utc) else σ.pidfile⟩ := by
  intro r
  have hoff := r.2.foldl_setOff (List.range r.2.count)
  unfold iterate at h
  cases hc : σ.ctrlC with
  | false =>
    simp only [hc, Bool.false_eq_true, if_false] at h
    split at h
    · cases h
    · cases h
      exact ⟨r.2, .refl _, fun _ => rfl, rfl⟩
  | true =>
    simp only [hc, if_true] at h
    split at h
    · cases h
    · cases h
      exact ⟨_, hoff.1, hoff.2, rfl⟩

theorem Current.iterate {e : MainEnv} (hσ : σ.Current) (h : σ.iterate e = .ok σ')
    (hl : σ.Noticed (.iterate e) σ') : σ'.Current := by
  obtain ⟨π, hoff, hchanged, rfl⟩ := iterate_eq_ok h
  set r := σ.process.poll (List.range σ.process.count) with hr
  have hpoll : σ.process.Unchanged r.2 := σ.process.poll_unchanged _
  refine ⟨hoff.regular (hpoll.regular hσ.regular), fun hquiet => ?_⟩
  have hquiet' : r.2.Quiet := fun i hi => hchanged i ▸ hquiet i (hoff.frame.count ▸ hi)
  cases hfound : r.1 with
  | false =>
    have hrecorded := hσ.recorded (Process.poll_range_eq_false_iff.1 hfound)
    exact recorded_of_unchanged hrecorded (hpoll.trans hoff) false
  | true =>
    cases hopen : e.canOpen with
    | false => exact absurd hquiet' (hl hfound hopen)
    | true => exact recorded_of_unchanged (recorded_pidTree r.2 e.utc false) hoff false

theorem Current.step (hσ : σ.Current) (h : mainLoop.step l σ = .ok σ') (hl : σ.Noticed l σ') :
    σ'.Current := by
  cases l with
  | other l =>
    simp only [mainLoop, Main.step] at h
    split at h
    · next π hπ =>
      cases h
      exact hσ.other hπ hl
    · cases h
  | signal =>
    cases h
    exact ⟨hσ.regular, hσ.recorded⟩
  | iterate e => exact hσ.iterate h hl

/-- Every scheduler starts with a change to be polled. -/
theorem Starts.current (h : σ.Starts) : σ.Current := by
  refine ⟨h.initial.regular, fun hquiet i hi => ?_⟩
  have hzero := hquiet i hi
  rw [h.changed i hi] at hzero
  omega

theorem Current.fresh (h : σ.Current) : σ.Fresh :=
  fun _ hpoll => h.recorded (Process.poll_range_eq_false_iff.1 hpoll)

/-- While no change is lost, the file has the pids whenever a poll finds nothing. -/
theorem pids_recorded (h₀ : σ₀.Starts) (h : mainLoop.Along Noticed ls σ₀) :
    mainLoop.Always Fresh ls σ₀ :=
  (Transition.System.always_of_along (fun _ _ _ hσ hstep hl => hσ.step hstep hl) h₀.current
    h).mono fun _ hσ => hσ.fresh

/-- PETeR with the one program `sleeper`. -/
def sleeping : Main := { process := .configured [.sleeper] }

theorem sleeping_starts : sleeping.Starts where
  initial := Process.sleeper_initial
  changed i hi := by
    obtain rfl : i = 0 := Nat.lt_one_iff.1 hi
    rfl
  ctrlC := rfl
  pidfile := rfl

/-- The pass of the scheduler that starts the program. -/
def startingPass : List MainLabel := List.replicate 8 (.other (.thread 0 fun _ => {}))

/-- The file is written after that pass. -/
theorem startingPass_noticed : mainLoop.Along Noticed (startingPass ++ [.iterate {}]) sleeping := by
  have hnoticed : ∀ {σ σ' : Main} {env : ℕ → Env}, (σ.process.thread 0).s.changed = 1 →
      σ.Noticed (.other (.thread 0 env)) σ' := by
    intro σ σ' env h hi
    constructor
    · intro hquiet
      have hzero := hquiet 0 hi
      rw [h] at hzero
      omega
    · intro p _ _
      rw [h]
      decide
  simp only [startingPass, List.replicate, List.cons_append, List.nil_append]
  iterate 8
    intro σ h
    cases h
    refine ⟨hnoticed rfl, ?_⟩
  exact fun σ _ => ⟨fun _ hopen => absurd hopen (by decide), trivial⟩

theorem pids_recorded_sleeper : ∃ σ,
    mainLoop.exec (startingPass ++ [.iterate {}]) sleeping = .ok σ ∧
    ((σ.process.thread 0).s.prog 0).pid = 1 ∧ σ.Recorded := by
  obtain ⟨σ, hσ, hpid, hcount, hpc, hpoll⟩ : ∃ σ,
      mainLoop.exec (startingPass ++ [.iterate {}]) sleeping = .ok σ ∧
      ((σ.process.thread 0).s.prog 0).pid = 1 ∧ σ.process.count = 1 ∧
      (σ.process.thread 0).pc = .loop ∧
      (σ.process.poll (List.range σ.process.count)).1 = false := ⟨_, rfl, rfl, rfl, rfl, rfl⟩
  have hfresh := Transition.System.always_iff_prefixes.1
    (pids_recorded sleeping_starts startingPass_noticed) _ List.prefix_rfl σ hσ
  refine ⟨σ, hσ, hpid, hfresh (fun i hi => ?_) hpoll⟩
  obtain rfl : i = 0 := by omega
  exact .inl hpc

/-- The file is written before that pass, in which no change is counted. -/
theorem pids_recorded_fails : ¬∀ (σ₀ : Main) (ls : List MainLabel), σ₀.Starts →
    mainLoop.Always Fresh ls σ₀ := by
  intro h
  obtain ⟨σ, hσ, hcount, hpc, hpoll, hprogram, hpid, hfile⟩ : ∃ σ,
      mainLoop.exec (.iterate {} :: startingPass) sleeping = .ok σ ∧ σ.process.count = 1 ∧
      (σ.process.thread 0).pc = .loop ∧
      (σ.process.poll (List.range σ.process.count)).1 = false ∧
      (σ.process.thread 0).s.programs[0]? = some 0 ∧
      ((σ.process.thread 0).s.prog 0).pid = 1 ∧
      (σ.pidfile.bind fun doc => recordedPid doc 0 0) = some (str "0") :=
    ⟨_, rfl, rfl, rfl, rfl, rfl, rfl, by decide⟩
  have hfresh := Transition.System.always_iff_prefixes.1 (h _ _ sleeping_starts) _
    List.prefix_rfl σ hσ
  have hrecorded := hfresh (fun i hi => ?_) hpoll 0 (by omega) 0 0 hprogram
  · rw [hfile, hpid] at hrecorded
    exact absurd hrecorded (by decide)
  · obtain rfl : i = 0 := by omega
    exact .inl hpc

end Main

end Peter
