import Mathlib.Tactic.SplitIfs
import Peter.Ledger
import Peter.System

/-!
# The scheduler keeps the books

Every call of the scheduler thread either leaves the books alone (`Quiet`) or makes an entry in
them: `run` may fork once, `what_next` runs the program at most once, and a whole step of the
thread is one of the few lists of entries of `Thread.Shape` (`Thread.step_entries`).  So the
process refines `supervisor` (`Process.step_entries`).

`Frame` is what no call changes: the programs of a scheduler and what the configuration says about
them.
-/

namespace Peter

/-! ## The books of a process -/

def books (S : ℕ → Scheduler) (os : OS) : Books where
  slot k := ((S k.1).prog k.2).pid
  running i := (S i).running
  starts k := ((S k.1).prog k.2).starts
  log i := (S i).elist.filter Event.aboutProcess
  limited k := ((S k.1).prog k.2).limits.maxruntime ≠ -1
  os := os

/-- The books when scheduler `i` and the system are those of `w`. -/
def World.books (S : ℕ → Scheduler) (i : ℕ) (w : World) : Books :=
  Peter.books (Function.update S i w.s) w.os

def Process.schedulers (σ : Process) (i : ℕ) : Scheduler := (σ.thread i).s

def Process.books (σ : Process) : Books := Peter.books σ.schedulers σ.os

/-- What the books say about the programs of one scheduler. -/
@[ext] structure Page where
  slot : ProgPtr → ℤ
  running : ℤ → Option ProgPtr
  starts : ProgPtr → ℕ
  log : List Event
  limited : ProgPtr → Bool

def Books.page (b : Books) (i : ℕ) : Page where
  slot p := b.slot (i, p)
  running := b.running i
  starts p := b.starts (i, p)
  log := b.log i
  limited p := b.limited (i, p)

def Scheduler.page (s : Scheduler) : Page where
  slot p := (s.prog p).pid
  running := s.running
  starts p := (s.prog p).starts
  log := s.elist.filter Event.aboutProcess
  limited p := (s.prog p).limits.maxruntime ≠ -1

theorem books_page (S : ℕ → Scheduler) (os : OS) (i : ℕ) :
    (Peter.books S os).page i = (S i).page := rfl

theorem Books.ext_page {b b' : Books} (h : ∀ i, b.page i = b'.page i) (hos : b.os = b'.os) :
    b = b' := by
  obtain ⟨slot, running, starts, log, limited, os⟩ := b
  obtain ⟨slot', running', starts', log', limited', os'⟩ := b'
  congr 1
  · exact funext fun k => congrFun (congrArg Page.slot (h k.1)) k.2
  · exact funext fun i => congrArg Page.running (h i)
  · exact funext fun k => congrFun (congrArg Page.starts (h k.1)) k.2
  · exact funext fun i => congrArg Page.log (h i)
  · exact funext fun k => congrFun (congrArg Page.limited (h k.1)) k.2

/-! ## What stays -/

/-- The fields of a program that no call of the scheduler changes; `stopMode` is never set. -/
structure Program.Frame (p q : Program) : Prop where
  name : q.name = p.name
  seq : q.seq = p.seq
  home : q.home = p.home
  stderrfile : q.stderrfile = p.stderrfile
  stdoutfile : q.stdoutfile = p.stdoutfile
  stopSig : q.stopSig = p.stopSig
  exitActions : q.exitActions = p.exitActions
  sgnlActions : q.sgnlActions = p.sgnlActions
  limits : q.limits = p.limits
  stopMode : q.stopMode = p.stopMode ∨ q.stopMode = 0

theorem Program.Frame.refl (p : Program) : p.Frame p := by constructor <;> simp

theorem Program.Frame.trans {p q r : Program} (h : p.Frame q) (h' : q.Frame r) : p.Frame r := by
  constructor
  case stopMode =>
    rcases h'.stopMode with h1 | h1
    · rw [h1]
      exact h.stopMode
    · exact .inr h1
  · exact h'.name.trans h.name
  · exact h'.seq.trans h.seq
  · exact h'.home.trans h.home
  · exact h'.stderrfile.trans h.stderrfile
  · exact h'.stdoutfile.trans h.stdoutfile
  · exact h'.stopSig.trans h.stopSig
  · exact h'.exitActions.trans h.exitActions
  · exact h'.sgnlActions.trans h.sgnlActions
  · exact h'.limits.trans h.limits

structure Scheduler.Frame (s s' : Scheduler) : Prop where
  self : s'.self = s.self
  programs : s'.programs = s.programs
  prog : ∀ p, (s.prog p).Frame (s'.prog p)

theorem Scheduler.Frame.refl (s : Scheduler) : s.Frame s := ⟨rfl, rfl, fun _ => .refl _⟩

theorem Scheduler.Frame.trans {s s' s'' : Scheduler} (h : s.Frame s') (h' : s'.Frame s'') :
    s.Frame s'' :=
  ⟨h'.self.trans h.self, h'.programs.trans h.programs, fun p => (h.prog p).trans (h'.prog p)⟩

theorem Scheduler.Frame.getProgramByName {s s' : Scheduler} (h : s.Frame s') (name : Str) :
    s'.getProgramByName name = s.getProgramByName name := by
  unfold Scheduler.getProgramByName
  rw [h.programs]
  refine congrArg (List.find? · s.programs) (funext fun p => ?_)
  rw [(h.prog p).name]

/-- Whether a program can start does not depend on what a call changes, but for `seq_idx`. -/
theorem Program.Frame.startable {p q : Program} (h : p.Frame q) (hidx : q.seqIdx = p.seqIdx)
    (e : Env) : e.startable q = e.startable p := by
  unfold Env.startable Env.missing
  rw [h.home, h.seq, hidx, h.stderrfile, h.stdoutfile]

/-- The call changes nothing that the books keep. -/
structure World.Quiet (w w' : World) : Prop where
  frame : w.s.Frame w'.s
  os : w'.os = w.os
  running : w'.s.running = w.s.running
  log : w'.s.elist.filter Event.aboutProcess = w.s.elist.filter Event.aboutProcess
  pid : ∀ p, (w'.prog p).pid = (w.prog p).pid
  starts : ∀ p, (w'.prog p).starts = (w.prog p).starts

namespace World

variable {w w' w'' : World} {p : ProgPtr} {e : Env}

theorem Quiet.refl (w : World) : w.Quiet w :=
  ⟨.refl _, rfl, rfl, rfl, fun _ => rfl, fun _ => rfl⟩

theorem Quiet.trans (h : w.Quiet w') (h' : w'.Quiet w'') : w.Quiet w'' where
  frame := h.frame.trans h'.frame
  os := h'.os.trans h.os
  running := h'.running.trans h.running
  log := h'.log.trans h.log
  pid p := (h'.pid p).trans (h.pid p)
  starts p := (h'.starts p).trans (h.starts p)

/-! ### The books of one scheduler -/

section Books

variable (S : ℕ → Scheduler) {i : ℕ}

theorem books_page_self (w : World) : (w.books S i).page i = w.s.page := by
  rw [World.books, books_page, Function.update_self]

theorem books_page_of_ne (w : World) {j : ℕ} (hj : j ≠ i) : (w.books S i).page j = (S j).page := by
  rw [World.books, books_page, Function.update_of_ne hj]

/-- The books of a world are known from the page of its scheduler. -/
theorem books_eq_of {b : Books} (hself : b.page i = w.s.page)
    (hother : ∀ j, j ≠ i → b.page j = (S j).page) (hos : b.os = w.os) : w.books S i = b := by
  refine Books.ext_page (fun j => ?_) hos.symm
  by_cases hj : j = i
  · rw [hj, books_page_self, hself]
  · rw [books_page_of_ne S w hj, hother j hj]

theorem slot_books (w : World) (p : ProgPtr) : (w.books S i).slot (i, p) = (w.prog p).pid :=
  congrFun (congrArg Page.slot (w.books_page_self S)) p

theorem running_books (w : World) : (w.books S i).running i = w.s.running :=
  congrArg Page.running (w.books_page_self S)

theorem starts_books (w : World) (p : ProgPtr) :
    (w.books S i).starts (i, p) = (w.prog p).starts :=
  congrFun (congrArg Page.starts (w.books_page_self S)) p

theorem log_books (w : World) : (w.books S i).log i = w.s.elist.filter Event.aboutProcess :=
  congrArg Page.log (w.books_page_self S)

theorem limited_books (w : World) (p : ProgPtr) :
    (w.books S i).limited (i, p) = decide ((w.prog p).limits.maxruntime ≠ -1) :=
  congrFun (congrArg Page.limited (w.books_page_self S)) p

end Books

theorem Quiet.books_eq (h : w.Quiet w') (S : ℕ → Scheduler) (i : ℕ) :
    w'.books S i = w.books S i := by
  refine books_eq_of S ?_ (fun j hj => w.books_page_of_ne S hj) h.os.symm
  rw [books_page_self]
  refine Page.ext (funext fun p => (h.pid p).symm) h.running.symm
    (funext fun p => (h.starts p).symm) h.log.symm (funext fun p => ?_)
  exact congrArg (fun l : Limits => decide (l.maxruntime ≠ -1)) (h.frame.prog p).limits.symm

/-! ### Small members -/

@[simp] theorem modifyProg_prog_self (w : World) (p : ProgPtr) (f : Program → Program) :
    (w.modifyProg p f).prog p = f (w.prog p) := by
  simp [modifyProg, prog]

theorem modifyProg_prog_of_ne (w : World) {p q : ProgPtr} (h : q ≠ p) (f : Program → Program) :
    (w.modifyProg p f).prog q = w.prog q := by
  simp [modifyProg, prog, Function.update_of_ne h]

theorem frame_modifyProg (w : World) (p : ProgPtr) {f : Program → Program}
    (hf : (w.prog p).Frame (f (w.prog p))) : w.s.Frame (w.modifyProg p f).s := by
  refine ⟨rfl, rfl, fun q => ?_⟩
  by_cases hq : q = p
  · subst hq
    simpa [modifyProg, prog] using hf
  · simpa [modifyProg, Function.update_of_ne hq] using Program.Frame.refl _

theorem quiet_modifyProg (w : World) (p : ProgPtr) {f : Program → Program}
    (hf : (w.prog p).Frame (f (w.prog p))) (hpid : (f (w.prog p)).pid = (w.prog p).pid)
    (hstarts : (f (w.prog p)).starts = (w.prog p).starts) : w.Quiet (w.modifyProg p f) where
  frame := w.frame_modifyProg p hf
  os := rfl
  running := rfl
  log := rfl
  pid q := by
    by_cases hq : q = p
    · rw [hq, modifyProg_prog_self, hpid]
    · rw [modifyProg_prog_of_ne w hq]
  starts q := by
    by_cases hq : q = p
    · rw [hq, modifyProg_prog_self, hstarts]
    · rw [modifyProg_prog_of_ne w hq]

theorem quiet_addSAttrib (w : World) (p : ProgPtr) (k v : Str) : w.Quiet (w.addSAttrib p k v) :=
  w.quiet_modifyProg p (by constructor <;> simp) rfl rfl

theorem addSAttrib_seqIdx (w : World) (q : ProgPtr) (k v : Str) (p : ProgPtr) :
    ((w.addSAttrib q k v).prog p).seqIdx = (w.prog p).seqIdx := by
  unfold addSAttrib
  by_cases hp : p = q
  · rw [hp, modifyProg_prog_self]
  · rw [modifyProg_prog_of_ne w hp]

theorem quiet_addWorkunit (w : World) (wType : WType) (tAt : ℤ) (q : Option ProgPtr) :
    w.Quiet (w.addWorkunit wType tAt q) :=
  ⟨⟨rfl, rfl, fun _ => .refl _⟩, rfl, rfl, rfl, fun _ => rfl, fun _ => rfl⟩

theorem quiet_addEvent (w : World) (t : ℤ) {ty : EventType} (p : ProgPtr) (status : ℤ)
    (h : ty = .stop ∨ ty = .limit) : w.Quiet (w.addEvent t ty p status) where
  frame := ⟨rfl, rfl, fun _ => .refl _⟩
  os := rfl
  running := rfl
  log := by rcases h with rfl | rfl <;> simp [addEvent, Event.aboutProcess]
  pid _ := rfl
  starts _ := rfl

theorem quiet_markUsed (w : World) (pos : ℕ) (wu : WorkUnit) (now : ℤ) :
    w.Quiet (w.markUsed pos wu now) :=
  ⟨⟨rfl, rfl, fun _ => .refl _⟩, rfl, rfl, rfl, fun _ => rfl, fun _ => rfl⟩

theorem quiet_setMode (w : World) (mode : Mode) : w.Quiet (w.setMode mode) :=
  ⟨⟨rfl, rfl, fun _ => .refl _⟩, rfl, rfl, rfl, fun _ => rfl, fun _ => rfl⟩

theorem quiet_setStatus (w : World) (status : Status) : w.Quiet (w.setStatus status) :=
  ⟨⟨rfl, rfl, fun _ => .refl _⟩, rfl, rfl, rfl, fun _ => rfl, fun _ => rfl⟩

theorem quiet_incChanged (w : World) : w.Quiet w.incChanged :=
  ⟨⟨rfl, rfl, fun _ => .refl _⟩, rfl, rfl, rfl, fun _ => rfl, fun _ => rfl⟩

theorem quiet_schedule (w : World) (schedule : Schedule) :
    w.Quiet { w with s := { w.s with schedule } } :=
  ⟨⟨rfl, rfl, fun _ => .refl _⟩, rfl, rfl, rfl, fun _ => rfl, fun _ => rfl⟩

/-! ### Small changes of the books -/

section Books

variable (S : ℕ → Scheduler) {i : ℕ}

theorem setRunning_books (w : World) (pid : ℤ) (q : Option ProgPtr) :
    (w.setRunning pid q).books S i = { w.books S i with
      running := Function.update (w.books S i).running i
        (Function.update ((w.books S i).running i) pid q) } := by
  refine books_eq_of S (Page.ext (funext (w.slot_books S)) ?_ (funext (w.starts_books S))
    (w.log_books S) (funext (w.limited_books S))) (fun j hj => ?_) rfl
  · apply (Function.update_self ..).trans
    rw [running_books]
    rfl
  · rw [← w.books_page_of_ne S hj]
    simp [Books.page, Function.update_of_ne hj]

theorem addEvent_books (w : World) (t : ℤ) {ty : EventType} (p : ProgPtr) (status : ℤ)
    (h : Event.aboutProcess ⟨t, ty, p, status⟩) :
    (w.addEvent t ty p status).books S i = { w.books S i with
      log := Function.update (w.books S i).log i
        ((w.books S i).log i ++ [⟨t, ty, p, status⟩]) } := by
  refine books_eq_of S (Page.ext (funext (w.slot_books S)) (w.running_books S)
    (funext (w.starts_books S)) ?_ (funext (w.limited_books S))) (fun j hj => ?_) rfl
  · apply (Function.update_self ..).trans
    rw [log_books]
    simp [Scheduler.page, addEvent, h]
  · rw [← w.books_page_of_ne S hj]
    simp [Books.page, Function.update_of_ne hj]

/-- A change of a program that keeps its limits changes its slot and its number of starts. -/
theorem modifyProg_books (w : World) {p : ProgPtr} {f : Program → Program}
    (hlimits : (f (w.prog p)).limits = (w.prog p).limits) :
    (w.modifyProg p f).books S i = { w.books S i with
      slot := Function.update (w.books S i).slot (i, p) (f (w.prog p)).pid
      starts := Function.update (w.books S i).starts (i, p) (f (w.prog p)).starts } := by
  have hkey : ∀ {q}, q ≠ p → (i, q) ≠ (i, p) := fun hq h => hq (congrArg Prod.snd h)
  refine books_eq_of S (Page.ext (funext fun q => ?slot) (w.running_books S)
    (funext fun q => ?starts) (w.log_books S) (funext fun q => ?limited)) (fun j hj => ?_) rfl
  case slot =>
    by_cases hq : q = p
    · subst hq
      exact (Function.update_self ..).trans (congrArg _ (w.modifyProg_prog_self q f)).symm
    · apply (Function.update_of_ne (hkey hq) ..).trans
      exact (w.slot_books S q).trans (congrArg _ (w.modifyProg_prog_of_ne hq f)).symm
  case starts =>
    by_cases hq : q = p
    · subst hq
      exact (Function.update_self ..).trans (congrArg _ (w.modifyProg_prog_self q f)).symm
    · apply (Function.update_of_ne (hkey hq) ..).trans
      exact (w.starts_books S q).trans (congrArg _ (w.modifyProg_prog_of_ne hq f)).symm
  case limited =>
    apply (w.limited_books S q).trans
    show _ = decide (((w.modifyProg p f).prog q).limits.maxruntime ≠ -1)
    by_cases hq : q = p
    · rw [hq, modifyProg_prog_self, hlimits]
    · rw [modifyProg_prog_of_ne w hq]
  · have hother : ∀ q, (j, q) ≠ (i, p) := fun q h => hj (congrArg Prod.fst h)
    rw [← w.books_page_of_ne S hj]
    simp [Books.page, Function.update_of_ne (hother _)]

theorem modifyProg_books_of_starts (w : World) {p : ProgPtr} {f : Program → Program}
    (hstarts : (f (w.prog p)).starts = (w.prog p).starts)
    (hlimits : (f (w.prog p)).limits = (w.prog p).limits) :
    (w.modifyProg p f).books S i = { w.books S i with
      slot := Function.update (w.books S i).slot (i, p) (f (w.prog p)).pid } := by
  rw [modifyProg_books S w hlimits, hstarts, ← starts_books S (i := i) w,
    Function.update_eq_self]

end Books

/-! ### `run` -/

theorem forked_frame (w : World) (e : Env) (p : ProgPtr) (hint : ℤ) :
    w.s.Frame (w.forked e p hint).s := by
  have h := frame_modifyProg { w with os := (w.os.fork w.s.self p hint).2 } p
    (f := fun prog => { prog with
      pid := w.os.freshPid hint, tStart := e.utc, tEnd := 0, starts := prog.starts + 1 })
    (by constructor <;> simp)
  exact ⟨h.self, h.programs, h.prog⟩

theorem forked_pid (w : World) (e : Env) (p : ProgPtr) (hint : ℤ) :
    ((w.forked e p hint).prog p).pid = w.os.freshPid hint := by
  simp [forked, prog, modifyProg, setRunning, addEvent, OS.fork]

/-- A fork is entered in the books. -/
theorem forked_books (S : ℕ → Scheduler) {i : ℕ} (hi : w.s.self = i) (e : Env) (p : ProgPtr)
    (hint : ℤ) : (w.forked e p hint).books S i = (w.books S i).fork (i, p) hint e.utc := by
  unfold forked
  dsimp only
  rw [addEvent_books S _ _ _ _ rfl, setRunning_books, modifyProg_books S _ (by rfl), hi]
  simp only [Books.fork, starts_books]
  rfl

/-- `cmd = …` in `run`. -/
def setCmd (w : World) (p : ProgPtr) (cmd : Str) : World :=
  w.modifyProg p fun prog => { prog with cmd }

/-- The parent when `run` has started `cmd`. -/
def launched (w : World) (e : Env) (p : ProgPtr) (cmd : Str) (hint : ℤ) : World :=
  (w.setCmd p cmd).forked e p hint

/-- What `run` can do. -/
inductive Ran (e : Env) (p : ProgPtr) (w : World) : World → Prop
  | running (hpid : (w.prog p).pid ≠ 0) : Ran e p w w
  | missing {cmd : Str} (hpid : (w.prog p).pid = 0) (hmissing : e.missing (w.prog p) = true) :
      Ran e p w ((w.setCmd p cmd).addWorkunit .exit e.now (some p))
  | refused {cmd : Str} (hpid : (w.prog p).pid = 0) (hfound : e.missing (w.prog p) = false)
      (hno : e.startable (w.prog p) = false)
      (hcmd : (w.prog p).seq[(w.prog p).seqIdx]? = some cmd) : Ran e p w (w.setCmd p cmd)
  | launched {cmd : Str} {hint : ℤ} (hpid : (w.prog p).pid = 0)
      (hok : e.startable (w.prog p) = true)
      (hcmd : (w.prog p).seq[(w.prog p).seqIdx]? = some cmd) (hfork : e.fork = some hint) :
      Ran e p w (w.launched e p cmd hint)

theorem setCmd_setCmd (w : World) (p : ProgPtr) (c c' : Str) :
    (w.setCmd p c).setCmd p c' = w.setCmd p c' := by
  simp [setCmd, modifyProg]

theorem setPid_setCmd (hpid : (w.prog p).pid = 0) (c : Str) :
    (w.setCmd p c).setPid p 0 = w.setCmd p c := by
  unfold World.prog at hpid
  simp [setCmd, setPid, modifyProg, ← hpid]

theorem ran_of_run (h : w.run e p = .ok w') : Ran e p w w' := by
  unfold run at h
  by_cases hpid : (w.prog p).pid = 0
  case neg =>
    rw [if_pos hpid] at h
    cases h
    exact .running hpid
  rw [if_neg (not_not.2 hpid)] at h
  obtain ⟨c, hc⟩ : ∃ c, w.substitute e p = w.setCmd p c := ⟨_, rfl⟩
  have hprog : ∀ c, (w.setCmd p c).prog p = { w.prog p with cmd := c } :=
    fun c => w.modifyProg_prog_self p _
  simp only [hc, hprog, setPid_setCmd hpid] at h
  by_cases hdir : e.checkDir (w.prog p).home = true
  case neg =>
    rw [if_pos (by simpa using hdir)] at h
    cases h
    exact .missing hpid (by simp [Env.missing, hdir])
  rw [if_neg (by simpa using hdir)] at h
  cases hcmd : (w.prog p).seq[(w.prog p).seqIdx]? with
  | none => rw [hcmd] at h; cases h
  | some cmd =>
    simp only [hcmd] at h
    rw [show (w.setCmd p c).modifyProg p (fun prog => { prog with cmd }) = w.setCmd p cmd from
      w.setCmd_setCmd p c cmd] at h
    simp only [hprog, setPid_setCmd hpid] at h
    by_cases hbin : e.findBinary (w.prog p).home cmd = true
    case neg =>
      rw [if_pos (by simpa using hbin)] at h
      cases h
      exact .missing hpid (by simp [Env.missing, hcmd, hbin])
    have hfound : e.missing (w.prog p) = false := by simp [Env.missing, hdir, hcmd, hbin]
    rw [if_neg (by simpa using hbin)] at h
    by_cases herr : e.canOpen (w.prog p).stderrfile = true
    case neg =>
      rw [if_pos (by simpa using herr)] at h
      cases h
      exact .refused hpid hfound (by simp [Env.startable, herr]) hcmd
    by_cases hout : e.canOpen (w.prog p).stdoutfile = true
    case neg =>
      rw [if_neg (by simpa using herr), if_pos (by simpa using hout)] at h
      cases h
      exact .refused hpid hfound (by simp [Env.startable, hout]) hcmd
    rw [if_neg (by simpa using herr), if_neg (by simpa using hout)] at h
    cases hfork : e.fork with
    | none => simp [hfork] at h
    | some hint =>
      simp only [hfork] at h
      split_ifs at h
      cases h
      exact .launched hpid (by simp [Env.startable, hfound, hcmd, herr, hout]) hcmd hfork

theorem quiet_setCmd (w : World) (p : ProgPtr) (cmd : Str) : w.Quiet (w.setCmd p cmd) :=
  w.quiet_modifyProg p (by constructor <;> simp) rfl rfl

/-- `run` forks when the program has no pid and all its checks pass, and is quiet otherwise. -/
theorem run_cases (h : w.run e p = .ok w') :
    (w.Quiet w' ∧ ¬((w.prog p).pid = 0 ∧ e.startable (w.prog p))) ∨
    ((w.prog p).pid = 0 ∧ e.startable (w.prog p) ∧
      ∃ hint w₁, e.fork = some hint ∧ w.Quiet w₁ ∧ w' = w₁.forked e p hint) := by
  cases ran_of_run h with
  | running hpid => exact .inl ⟨.refl w, fun hp => hpid hp.1⟩
  | missing hpid hmissing =>
    refine .inl ⟨(w.quiet_setCmd p _).trans (quiet_addWorkunit ..), fun hp => ?_⟩
    simp [Env.startable, hmissing] at hp
  | refused hpid hfound hno => exact .inl ⟨w.quiet_setCmd p _, fun hp => by simp [hno] at hp⟩
  | @launched cmd hint hpid hok hcmd hfork =>
    exact .inr ⟨hpid, hok, hint, _, hfork, w.quiet_setCmd p cmd, rfl⟩

end World

end Peter
