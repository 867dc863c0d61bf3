import Peter.Program

/-!
# The scheduler thread

`scheduler( void* )` of `Scheduler.cc`, as a machine: `Pc` says where the thread is and holds the
locals of the loops it is in, and `Thread.step` takes it to the next such place.  Everything else
in the process and in the system may happen between two steps.  The loops are the two passes over
the schedule, the `maxruntime` limits, the reaper, and the two phases of the shutdown.
-/

namespace Peter

/-- A `vector::iterator` into the schedule: a place in the buffer of a given capacity. -/
structure Iter where
  pos : ℕ
  capacity : ℕ
  deriving DecidableEq, Repr

/-- Where the thread is. -/
inductive Pc
  /-- The test of `while ( s->mode != SCHED_OFF )`. -/
  | loop
  /-- The first pass over the schedule, at `wui`. -/
  | firstPass (now : ℤ) (wui : Iter)
  /-- The loop over the programs for the `maxruntime` limit. -/
  | limits (now : ℤ) (pri : ℕ)
  /-- The loop over the programs that waits for deaths. -/
  | deaths (now : ℤ) (pri : ℕ)
  /-- Its inner loop, that calls `waitpid` with `pid`. -/
  | poll (now : ℤ) (pri : ℕ) (pid : ℤ)
  /-- The loop that sends the stop signals of the shutdown. -/
  | ending (pi : ℕ) (pCount : ℤ)
  /-- `while ( ( tries-- > 0 ) && ( k_count > 0 ) )` of the first shutdown phase. -/
  | waiting (tries pCount kCount : ℤ)
  /-- Its inner loop over the programs. -/
  | waitFor (tries pCount kCount : ℤ) (pri : ℕ)
  /-- The loop that sends `SIGKILL`. -/
  | killing (pi : ℕ) (pCount : ℤ)
  /-- The loop of the second shutdown phase. -/
  | reaping (tries pCount kCount : ℤ)
  /-- The thread has returned. -/
  | returned
  deriving DecidableEq, Repr

/-- A scheduler thread: its object, its place and the outer variable `now`. -/
structure Thread where
  s : Scheduler
  pc : Pc := .loop
  now : ℤ := 0

/-! ## The first pass -/

namespace Schedule

/-- `wu->w_type = WT_NOTINIT`, for the unit at `pos`, which is now handled. -/
def markUsed (sch : Schedule) (pos : ℕ) (wu : WorkUnit) (now : ℤ) : Schedule :=
  { sch with
    units := sch.units.set pos { wu with wType := .notinit }
    handled := sch.handled ++ [(wu, now)] }

/-- The second pass: erase the used units. -/
def eraseUsed : List WorkUnit → List WorkUnit
  | [] => []
  | wu :: rest => if wu.wType = .notinit then eraseUsed rest else wu :: eraseUsed rest

end Schedule

namespace World

def markUsed (w : World) (pos : ℕ) (wu : WorkUnit) (now : ℤ) : World :=
  { w with s := { w.s with schedule := w.s.schedule.markUsed pos wu now } }

def setMode (w : World) (mode : Mode) : World := { w with s := { w.s with mode } }

def setStatus (w : World) (status : Status) : World := { w with s := { w.s with status } }

def incChanged (w : World) : World := { w with s := { w.s with changed := w.s.changed + 1 } }

/-- The body of the first pass for the unit `wu` at `pos`. -/
def handleUnit (e : Env) (now : ℤ) (pos : ℕ) (wu : WorkUnit) (w : World) : Except Halt World :=
  match wu.wType with
  | .exit => .ok ((w.markUsed pos wu now).setMode .off)
  | .runProg =>
    if wu.delta now ≤ 0 then
      match wu.program with
      | none => .error .undefined
      | some p => match w.run e p with
        | .error h => .error h
        | .ok w =>
          let w := w.markUsed pos wu now
          .ok (w.setRunning (w.prog p).pid (some p))
    else .ok w
  | .endProg =>
    if wu.delta now ≤ 0 then
      match wu.program with
      | none => .error .undefined
      | some p =>
        let w := w.modifyProg p fun prog => { prog with stopMode := 0 }
        let w := w.addEvent now .stop p (-1)
        let (_, w) := w.sendSignal e p (w.prog p).stopSig .endProg
        .ok (w.markUsed pos wu now)
    else .ok w
  | .nostart => match wu.program with
    | none => .error .undefined
    | some _ => .ok (w.markUsed pos wu now)
  | .notinit => .ok w
  | .waitPid => .ok w

/-! ## Limits and deaths -/

/-- The body of the loop for the `maxruntime` limit. -/
def handleLimit (e : Env) (now : ℤ) (p : ProgPtr) (w : World) : World :=
  if (w.prog p).checkRunlimit e.utc then
    let (_, w) := w.sendSignal e p (w.prog p).stopSig .limit
    (w.setPid p 0).addEvent now .limit p 0
  else w

/-- `EVT_CRASH` for a death by a signal, unless the program was stopped by hand, else `EVT_END`. -/
def addDeathEvent (w : World) (now : ℤ) (p : ProgPtr) (status : ℕ) : World :=
  if wifsignaled status then
    if (w.prog p).stopMode = 0 then w.addEvent now .crash p status else w
  else w.addEvent now .ended p status

/-- `waitpid` returned `c`, which runs as program `p` here. -/
def bury (w : World) (c : Child) (p : ProgPtr) (now : ℤ) : World :=
  (w.modifyProg p fun prog => { prog with pid := 0, tEnd := now }).setRunning c.pid none

/-- What the reaper does for a dead child that runs as program `p`. -/
def handleDeath (env : ℕ → Env) (now : ℤ) (c : Child) (p : ProgPtr) (w : World) :
    Except Halt World :=
  let status := c.status.getD 0
  let w := (w.bury c p now).addDeathEvent now p status
  let sig := if wifsignaled status then wtermsig status else 0
  match w.whatNext env (wexitstatus status) sig p with
  | .error h => .error h
  | .ok w => .ok w.incChanged

/-- `waitpid`, and the program found under the pid it returns. -/
def wait (w : World) (e : Env) (pid : ℤ) : OS.Waited × Option ProgPtr × World :=
  match w.os.waitpid pid e.pick with
  | (.child c, os) =>
    let p := w.s.running c.pid
    let slot := match p with
      | some p => (w.prog p).pid
      | none => 0
    (.child c, p, { w with os := os.observe (.waited w.s.self c p slot) })
  | (r, os) => (r, none, { w with os })

end World

/-! ## The machine -/

namespace Thread

/-- The thread continues at `pc` with the object and the system of `w`. -/
def goto (t : Thread) (pc : Pc) (w : World) : Except Halt (Thread × OS) :=
  .ok ({ t with s := w.s, pc }, w.os)

/-- Continue after a call that may not return. -/
def gotoAfter (t : Thread) (pc : Pc) : Except Halt World → Except Halt (Thread × OS)
  | .ok w => t.goto pc w
  | .error h => .error h

/-- One step in the first pass. -/
def stepFirstPass (e : Env) (t : Thread) (os : OS) (now : ℤ) (wui : Iter) :
    Except Halt (Thread × OS) :=
  -- an iterator into a buffer the vector has left may not be compared or advanced
  if wui.capacity ≠ t.s.schedule.capacity then .error .undefined
  else match t.s.schedule.units[wui.pos]? with
    | some wu => t.gotoAfter (.firstPass now { wui with pos := wui.pos + 1 })
        (World.handleUnit e now wui.pos wu ⟨t.s, os⟩)
    | none => t.goto (.limits now 0) ⟨{ t.s with schedule :=
        { t.s.schedule with units := Schedule.eraseUsed t.s.schedule.units } }, os⟩

/-- One call of `waitpid` in the reaper. -/
def stepPoll (env : ℕ → Env) (t : Thread) (os : OS) (now : ℤ) (pri : ℕ) (pid : ℤ) :
    Except Halt (Thread × OS) :=
  match World.wait ⟨t.s, os⟩ (env 0) pid with
  | (.child c, some p, w) => t.gotoAfter (.poll now pri pid)
      (w.handleDeath (fun i => env (i + 1)) now c p)
  | (.child _, none, w) => t.goto .returned w
  | (_, _, w) => t.goto (.deaths now (pri + 1)) w

/-- One call of `waitpid` in the shutdown, which goes on at `child`, `zero` or `echild`. -/
def stepWait (e : Env) (t : Thread) (os : OS) (pid : ℤ) (child zero echild : Pc) :
    Except Halt (Thread × OS) :=
  match World.wait ⟨t.s, os⟩ e pid with
  | (.child c, some p, w) => t.goto child (w.bury c p t.now)
  | (.child _, none, w) => t.goto .returned w
  | (.zero, _, w) => t.goto zero w
  | (.echild, _, w) => t.goto echild w

/-- The shutdown is over. -/
def finish (t : Thread) (os : OS) : Except Halt (Thread × OS) :=
  t.goto .returned (World.setStatus ⟨t.s, os⟩ .ready)

/-- One step of the thread. -/
def step (env : ℕ → Env) (t : Thread) (os : OS) : Except Halt (Thread × OS) :=
  let e := env 0
  match t.pc with
  | .loop =>
    if t.s.mode = .off then t.goto (.ending 0 0) (World.setStatus ⟨t.s, os⟩ .ending)
    else t.goto (.firstPass e.utc ⟨0, t.s.schedule.capacity⟩)
      ⟨{ t.s with schedule := { t.s.schedule with passStart := t.s.schedule.units } }, os⟩
  | .firstPass now wui => t.stepFirstPass e os now wui
  | .limits now pri => match t.s.programs[pri]? with
    | some p => t.goto (.limits now (pri + 1)) (World.handleLimit e now p ⟨t.s, os⟩)
    | none => t.goto (.deaths now 0) ⟨t.s, os⟩
  | .deaths now pri => match t.s.programs[pri]? with
    | some p => t.goto (.poll now pri (t.s.prog p).pid) ⟨t.s, os⟩
    | none => t.goto .loop ⟨t.s, os⟩
  | .poll now pri pid => t.stepPoll env os now pri pid
  | .ending pi pCount => match t.s.programs[pi]? with
    | some p =>
      if (t.s.prog p).pid > 0 then
        let (r, w) := World.sendSignal ⟨t.s, os⟩ e p (t.s.prog p).stopSig .ending
        t.goto (.ending (pi + 1) (if r = 0 then pCount + 1 else pCount)) w
      else t.goto (.ending (pi + 1) pCount) ⟨t.s, os⟩
    | none => t.goto (.waiting 10000 pCount pCount) (World.setStatus ⟨t.s, os⟩ .waiting)
  | .waiting tries pCount kCount =>
    if tries > 0 ∧ kCount > 0 then t.goto (.waitFor (tries - 1) pCount kCount 0) ⟨t.s, os⟩
    else if pCount > 0 then t.goto (.killing 0 0) ⟨t.s, os⟩
    else t.finish os
  | .waitFor tries pCount kCount pri => match t.s.programs[pri]? with
    | some p => t.stepWait e os (t.s.prog p).pid
        (.waitFor tries (pCount - 1) (kCount - 1) (pri + 1))
        (.waitFor tries pCount kCount (pri + 1))
        (.waitFor tries pCount (kCount - 1) (pri + 1))
    | none => t.goto (.waiting tries pCount kCount) ⟨t.s, os⟩
  | .killing pi pCount => match t.s.programs[pi]? with
    | some p =>
      if (t.s.prog p).pid > 0 then
        let (_, w) := World.sendSignal ⟨t.s, os⟩ e p 9 .sigkill
        t.goto (.killing (pi + 1) (pCount + 1)) w
      else t.goto (.killing (pi + 1) pCount) ⟨t.s, os⟩
    | none => t.goto (.reaping 1000 pCount pCount) ⟨t.s, os⟩
  | .reaping tries pCount kCount =>
    if tries > 0 ∧ kCount > 0 then
      t.stepWait e os 0 (.reaping (tries - 1) (pCount - 1) (kCount - 1))
        (.reaping (tries - 1) pCount kCount) (.reaping (tries - 1) pCount (kCount - 1))
    else t.finish os
  | .returned => t.goto .returned ⟨t.s, os⟩

end Thread

end Peter
