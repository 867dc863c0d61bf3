import Mathlib.Logic.Function.Basic
import Peter.Os

/-!
# Programs, work units and events

The records of `Program.h`, `Actions.h`, `WorkUnit.h`, `Events.h` and `Scheduler.h`, and the
members of `Program` that run inside the scheduler thread: `run`, `send_signal`, `get_actions` and
`what_next`.  They work on a `World`: the scheduler object, with the programs its pointers lead to,
and the operating system.  A call the C++ standard gives no meaning, or one that ends the process,
has no world after it but a `Halt`.
-/

namespace Peter

/-! ## Data -/

/-- `AXN_NOP` and so on. -/
inductive ActionType
  | nop
  | exec
  | wait
  | kill
  | exit
  deriving DecidableEq, Repr

/-- An `Action`; an attribute that was never added reads as the empty string or 0. -/
structure Action where
  actionType : ActionType
  prog : Str := []
  after : ℤ := 0
  deriving DecidableEq, Repr

abbrev ActionList := List Action

/-- `limits[LIMIT_STARTS]` and so on; -1 is no limit. -/
structure Limits where
  starts : ℤ := -1
  minruntime : ℤ := -1
  maxruntime : ℤ := -1
  deriving DecidableEq, Repr

structure Program where
  name : Str
  cmd : Str := str "sleep 10"
  seqIdx : ℕ := 0
  seq : List Str := []
  home : Str := str "./"
  stderrfile : Str := []
  stdoutfile : Str := []
  tStart : ℤ := 0
  tEnd : ℤ := 0
  pid : ℤ := 0
  stopSig : ℤ := 15
  exitActions : ℤ → Option ActionList := fun _ => none
  sgnlActions : ℤ → Option ActionList := fun _ => none
  sAttribs : Str → Str := fun _ => []
  starts : ℕ := 0
  stopMode : ℤ := 0
  limits : Limits := {}

/-- `WT_NOTINIT` and so on. -/
inductive WType
  | notinit
  | exit
  | runProg
  | endProg
  | waitPid
  | nostart
  deriving DecidableEq, Repr

/-- A `WorkUnit`, at address `addr`. -/
structure WorkUnit where
  addr : ℕ
  wType : WType
  tAt : ℤ
  program : Option ProgPtr
  deriving DecidableEq, Repr

/-- `delta`, which wraps around where the difference of the two `time_t` does not fit. -/
def WorkUnit.delta (wu : WorkUnit) (now : ℤ) : ℤ := toLong (wu.tAt - now)

/-- `EVT_START` and so on. -/
inductive EventType
  | start
  | ended
  | stop
  | crash
  | limit
  deriving DecidableEq, Repr

structure Event where
  tStamp : ℤ
  eventType : EventType
  program : ProgPtr
  status : ℤ
  deriving DecidableEq, Repr

/-- `Scheduler::schedule`: the units of the vector and its capacity.  `nextAddr` is the address of
the next `new WorkUnit`.  The other fields are history: every unit added, the units handled with
the clock of the pass that did it, and the vector as the running pass found it. -/
structure Schedule where
  units : List WorkUnit := []
  capacity : ℕ := 20
  nextAddr : ℕ := 0
  added : List WorkUnit := []
  handled : List (WorkUnit × ℤ) := []
  passStart : List WorkUnit := []
  deriving DecidableEq, Repr

/-- `SCHED_OFF` and `SCHED_ON`. -/
inductive Mode
  | off
  | on
  deriving DecidableEq, Repr

/-- `STATUS_INITIALISED` and so on. -/
inductive Status
  | initialised
  | running
  | ending
  | waiting
  | ready
  | starting
  deriving DecidableEq, Repr

/-- A `Scheduler` object, `self` its place in the list of schedulers.  `programs` is the vector of
pointers, `prog` what they lead to; `running` has no entry where the map holds `NULL`. -/
structure Scheduler where
  self : ℕ
  name : Str
  schedule : Schedule := {}
  programs : List ProgPtr := []
  prog : ProgPtr → Program
  running : ℤ → Option ProgPtr := fun _ => none
  mode : Mode := .on
  status : Status := .running
  changed : ℕ := 1
  elist : List Event := []

/-- Why a thread does not go on: the process called `exit` or ended with an exception nobody
catches, or the behaviour is undefined. -/
inductive Halt
  | exited (code : ℕ)
  | terminated
  | undefined
  deriving DecidableEq, Repr

/-- What the system answers while one call of the program runs. -/
structure Env where
  utc : ℤ := 0
  now : ℤ := 0
  dateTimeUtc : ℤ → Str := fun _ => []
  getenvPath : Option Str := none
  checkDir : Str → Bool := fun _ => true
  /-- `stat(path) == 0`. -/
  stat : Str → Bool := fun _ => true
  /-- `lstat(path)`: `none` when it fails, else whether the file is a link. -/
  lstat : Str → Option Bool := fun _ => none
  /-- `open(path, O_CREAT) != -1`. -/
  canOpen : Str → Bool := fun _ => true
  /-- `none` when `fork` fails, else the pid the system would like to give. -/
  fork : Option ℤ := some 1
  /-- `kill(…) == 0`. -/
  killOk : Bool := true
  /-- Which of several dead children `waitpid` returns. -/
  pick : ℕ := 0

/-- The state the members of `Program` work on. -/
structure World where
  s : Scheduler
  os : OS

/-! ## Small members -/

/-- `schedule.push_back(wu)`: a full vector moves to a larger buffer. -/
def Schedule.pushBack (sch : Schedule) (wu : WorkUnit) : Schedule :=
  { sch with
    units := sch.units ++ [wu]
    capacity := if sch.units.length < sch.capacity then sch.capacity
      else sch.units.length + max sch.units.length 1
    nextAddr := sch.nextAddr + 1
    added := sch.added ++ [wu] }

namespace World

def prog (w : World) (p : ProgPtr) : Program := w.s.prog p

def modifyProg (w : World) (p : ProgPtr) (f : Program → Program) : World :=
  { w with s := { w.s with prog := Function.update w.s.prog p (f (w.s.prog p)) } }

/-- `set_pid`. -/
def setPid (w : World) (p : ProgPtr) (pid : ℤ) : World :=
  w.modifyProg p fun prog => { prog with pid }

/-- `add_s_attrib`. -/
def addSAttrib (w : World) (p : ProgPtr) (k v : Str) : World :=
  w.modifyProg p fun prog => { prog with sAttribs := Function.update prog.sAttribs k v }

/-- `s->add_workunit( new WorkUnit( wType, tAt, program ) )`. -/
def addWorkunit (w : World) (wType : WType) (tAt : ℤ) (program : Option ProgPtr) : World :=
  { w with s := { w.s with
      schedule := w.s.schedule.pushBack ⟨w.s.schedule.nextAddr, wType, tAt, program⟩ } }

/-- `s->elist->add_event( new Event( … ) )`. -/
def addEvent (w : World) (tStamp : ℤ) (eventType : EventType) (program : ProgPtr) (status : ℤ) :
    World :=
  { w with s := { w.s with elist := w.s.elist ++ [⟨tStamp, eventType, program, status⟩] } }

/-- `running[ pid ] = p`. -/
def setRunning (w : World) (pid : ℤ) (p : Option ProgPtr) : World :=
  { w with s := { w.s with running := Function.update w.s.running pid p } }

end World

/-- `Scheduler::get_program_by_name`. -/
def Scheduler.getProgramByName (s : Scheduler) (name : Str) : Option ProgPtr :=
  s.programs.find? fun p => (s.prog p).name = name

namespace Program

def getRuntime (utc : ℤ) (p : Program) : ℤ :=
  if p.tEnd = 0 then if p.tStart = 0 then 0 else utc - p.tStart
  else p.tEnd - p.tStart

def getOfftime (utc : ℤ) (p : Program) : ℤ := if p.tEnd = 0 then 0 else utc - p.tEnd

def checkRunlimit (utc : ℤ) (p : Program) : Bool :=
  p.pid ≠ 0 ∧ p.limits.maxruntime ≠ -1 ∧ p.getRuntime utc > p.limits.maxruntime

def info (utc : ℤ) (p : Program) : Str :=
  p.name ++ str " P:" ++ toStr p.pid ++ str " S:" ++ toStr p.starts ++ str " A:" ++
    secsToStr (p.getRuntime utc) ++
    if p.pid = 0 then str " D:" ++ secsToStr (p.getOfftime utc) else []

/-- `get_actions`: a signal without its own list has the list of signal 0. -/
def getActions (p : Program) (res sig : ℤ) : Option ActionList :=
  if sig > 0 then
    match p.sgnlActions sig with
    | some al => some al
    | none => p.sgnlActions 0
  else p.exitActions res

/-- `inc_seq_idx`; the remainder by an empty sequence ends the process. -/
def incSeqIdx (p : Program) : Except Halt Program :=
  if p.seq.length = 0 then .error .undefined
  else .ok { p with seqIdx := (p.seqIdx + 1) % p.seq.length }

/-- The text of a command up to its first blank. -/
def bin (cmd : Str) : Str := match find cmd (str " ") 0 with
  | some pos => substr cmd 0 pos
  | none => cmd

end Program

/-! ## `Program::run` -/

namespace Env

/-- Is the binary of `cmd` found: as a path, in `PATH`, or else in the home directory? -/
def findBinary (e : Env) (home cmd : Str) : Bool :=
  let bin := Program.bin cmd
  if (str "/").isPrefixOf bin || (str "./").isPrefixOf bin then e.stat bin
  else
    let tokens := match e.getenvPath with
      | some p => tokenize p [] (UInt8.ofNat 58)
      | none => []
    let numBin := (tokens.filter fun t => (e.lstat (t ++ str "/" ++ bin)).isSome).length
    numBin ≠ 0 || e.stat (home ++ str "/" ++ bin)

/-- The home directory or the binary of the current command is missing: `run` queues the end of
the scheduler. -/
def missing (e : Env) (prog : Program) : Bool :=
  !e.checkDir prog.home || match prog.seq[prog.seqIdx]? with
    | some cmd => !e.findBinary prog.home cmd
    | none => false

/-- All checks of `run` pass, so that it comes to `fork`. -/
def startable (e : Env) (prog : Program) : Bool :=
  !e.missing prog && prog.seq[prog.seqIdx]?.isSome && e.canOpen prog.stderrfile &&
    e.canOpen prog.stdoutfile

end Env

namespace World

/-- `cmd = replacein( cmd, … )` for each placeholder. -/
def substitute (w : World) (e : Env) (p : ProgPtr) : World :=
  w.modifyProg p fun prog =>
    let cmd := replacein prog.cmd (str "NAME") (prog.sAttribs (str "name"))
    let cmd := replacein cmd (str "RES") (prog.sAttribs (str "res"))
    let cmd := replacein cmd (str "SIG") (prog.sAttribs (str "sig"))
    { prog with cmd := replacein cmd (str "UTC") (e.dateTimeUtc e.now) }

/-- The parent after a successful `fork`. -/
def forked (w : World) (e : Env) (p : ProgPtr) (hint : ℤ) : World :=
  let (pid, os) := w.os.fork w.s.self p hint
  let w := { w with os }.modifyProg p fun prog =>
    { prog with pid, tStart := e.utc, tEnd := 0, starts := prog.starts + 1 }
  (w.setRunning pid (some p)).addEvent e.utc .start p (-1)

/-- `Program::run`. -/
def run (e : Env) (p : ProgPtr) (w : World) : Except Halt World :=
  if (w.prog p).pid ≠ 0 then .ok w
  else
    let w := w.substitute e p
    if !e.checkDir (w.prog p).home then
      .ok ((w.setPid p 0).addWorkunit .exit e.now (some p))
    else match (w.prog p).seq[(w.prog p).seqIdx]? with
      | none => .error .undefined
      | some cmd =>
        let w := w.modifyProg p fun prog => { prog with cmd }
        if !e.findBinary (w.prog p).home cmd then
          .ok ((w.setPid p 0).addWorkunit .exit e.now (some p))
        else if !e.canOpen (w.prog p).stderrfile then .ok (w.setPid p 0)
        else if !e.canOpen (w.prog p).stdoutfile then .ok (w.setPid p 0)
        else match e.fork with
          | none => .error (.exited 1)
          | some hint =>
            -- `++starts` on the largest `int`
            if (w.prog p).starts = 2147483647 then .error .undefined else .ok (w.forked e p hint)

/-! ## `Program::send_signal` and `Program::what_next` -/

/-- `Program::send_signal`, with its result. -/
def sendSignal (w : World) (e : Env) (p : ProgPtr) (sig : ℤ) (cause : Cause) : ℤ × World :=
  if (w.prog p).pid = 0 then (-1, w)
  else (if e.killOk then 0 else -1,
    { w with os := w.os.kill w.s.self p (w.prog p).pid sig cause e.killOk })

/-- One round of the loop of `what_next` over the actions. -/
def doAction (e : Env) (p : ProgPtr) (res sig : ℤ) (limitReached : Bool) (a : Action) (w : World) :
    Except Halt World :=
  let q := (w.s.getProgramByName a.prog).getD p
  let w := w.addSAttrib q (str "res") (toStr res)
  let w := w.addSAttrib q (str "sig") (toStr sig)
  let w := w.addSAttrib q (str "name") (w.prog p).name
  match a.actionType with
  | .exec =>
    if limitReached ∧ q = p then .ok w
    else if q = p ∧ a.after = 0 then w.run e p
    else .ok (w.addWorkunit .runProg (toLong (e.now + a.after)) (some q))
  | .kill =>
    if q ≠ p then .ok (w.addWorkunit .endProg (toLong (e.now + a.after)) (some q)) else .ok w
  | .exit => .ok (w.addWorkunit .exit e.now (some q))
  | .nop => .ok w
  | .wait => .ok w

/-- The loop of `what_next`; `env i` answers the calls of round `i`. -/
def doActions (p : ProgPtr) (res sig : ℤ) (limitReached : Bool) :
    List Action → (ℕ → Env) → World → Except Halt World
  | [], _, w => .ok w
  | a :: al, env, w => match w.doAction (env 0) p res sig limitReached a with
    | .ok w => doActions p res sig limitReached al (fun i => env (i + 1)) w
    | .error h => .error h

/-- The two limits `what_next` looks at, with an event for each one reached. -/
def checkLimits (w : World) (e : Env) (p : ProgPtr) : Bool × World :=
  let prog := w.prog p
  let tooShort : Bool := prog.limits.minruntime ≠ -1 ∧
    prog.getRuntime e.utc < prog.limits.minruntime
  let w := if tooShort then w.addEvent e.now .limit p 0 else w
  let tooMany : Bool := prog.limits.starts ≠ -1 ∧ (prog.starts : ℤ) > prog.limits.starts
  let w := if tooMany then w.addEvent e.now .limit p 0 else w
  (tooShort || tooMany, w)

/-- `Program::what_next`; `env 0` answers the calls before the loop. -/
def whatNext (env : ℕ → Env) (res sig : ℤ) (p : ProgPtr) (w : World) : Except Halt World :=
  if (w.prog p).stopMode = 1 then .ok (w.modifyProg p fun prog => { prog with stopMode := 0 })
  else
    let last : Bool := (w.prog p).seqIdx + 1 = (w.prog p).seq.length
    match (w.prog p).incSeqIdx with
    | .error h => .error h
    | .ok prog =>
      let w := w.modifyProg p fun _ => prog
      if !last then .ok (w.addWorkunit .runProg (env 0).now (some p))
      else match (w.prog p).getActions res sig with
        | none => .ok w
        | some al =>
          let (limitReached, w) := w.checkLimits (env 0) p
          doActions p res sig limitReached al (fun i => env (i + 1)) w

end World

end Peter
