import Mathlib.Tactic.SplitIfs
import Peter.Lib.Transition
import Peter.Scheduler

/-!
# The PETeR process

All scheduler threads over the one set of children.  A label is a step of one thread, or something
that happens between two steps: a child dies or leaves the process group, a command from the socket
queues a unit, a `control-C` turns a scheduler off.
-/

namespace Peter

/-- The schedulers are `thread 0` to `thread (count - 1)`; the others are never started. -/
structure Process where
  count : ℕ
  thread : ℕ → Thread
  os : OS

inductive Label
  /-- A step of scheduler `i`. -/
  | thread (i : ℕ) (env : ℕ → Env)
  | dies (pid : ℤ) (status : ℕ)
  | leaves (pid : ℤ)
  /-- `<quit />` for scheduler `i`. -/
  | quit (i : ℕ) (now : ℤ)
  /-- `<start name="" />` for scheduler `i`. -/
  | start (i : ℕ) (name : Str) (now : ℤ)
  /-- `<stop name="" />` for scheduler `i`. -/
  | stop (i : ℕ) (name : Str) (now : ℤ)
  | interrupt (i : ℕ)

namespace Process

/-- The process with another scheduler object `i` and another system. -/
def put (σ : Process) (i : ℕ) (t : Thread) (os : OS) : Process :=
  { σ with thread := Function.update σ.thread i t, os }

/-- `add_workunit` to scheduler `i` by another thread. -/
def addWorkunit (σ : Process) (i : ℕ) (wType : WType) (tAt : ℤ) (program : Option ProgPtr) :
    Process :=
  let t := σ.thread i
  let w := World.addWorkunit ⟨t.s, σ.os⟩ wType tAt program
  σ.put i { t with s := w.s } w.os

/-- A unit for the program of scheduler `i` with that name, if there is one. -/
def addNamed (σ : Process) (i : ℕ) (wType : WType) (name : Str) (now : ℤ) : Process :=
  match (σ.thread i).s.getProgramByName name with
  | some p => σ.addWorkunit i wType now (some p)
  | none => σ

def setOff (σ : Process) (i : ℕ) : Process :=
  let t := σ.thread i
  σ.put i { t with s := { t.s with mode := .off } } σ.os

/-- A step of the process. -/
def step : Label → Process → Except Halt Process
  | .thread i env, σ =>
    if i < σ.count then
      match (σ.thread i).step env σ.os with
      | .ok (t, os) => .ok (σ.put i t os)
      | .error h => .error h
    else .ok σ
  | .dies pid status, σ => .ok { σ with os := σ.os.dies pid status }
  | .leaves pid, σ => .ok { σ with os := σ.os.leaves pid }
  | .quit i now, σ => .ok (σ.addWorkunit i .exit now none)
  | .start i name now, σ => .ok (σ.addNamed i .runProg name now)
  | .stop i name now, σ => .ok (σ.addNamed i .endProg name now)
  | .interrupt i, σ => .ok (σ.setOff i)

end Process

/-- The process as a transition system. -/
def machine : Transition.System Process Label Halt := ⟨Process.step⟩

theorem Process.step_thread {σ : Process} {i : ℕ} {env : ℕ → Env} {t : Thread} {os : OS}
    (hi : i < σ.count) (h : (σ.thread i).step env σ.os = .ok (t, os)) :
    machine.step (.thread i env) σ = .ok (σ.put i t os) := by
  simp only [machine, step]
  rw [if_pos hi, h]

/-! ## Initial states -/

/-- The schedule as the configuration leaves it: the units of the `<init>` sections, none of them
handled. -/
structure Schedule.Loaded (sch : Schedule) : Prop where
  added : sch.added = sch.units
  handled : sch.handled = []
  passStart : sch.passStart = []
  nodup : (sch.units.map WorkUnit.addr).Nodup
  addr_lt : ∀ wu ∈ sch.units, wu.addr < sch.nextAddr
  wType : ∀ wu ∈ sch.units, wu.wType = .runProg ∨ wu.wType = .endProg ∨ wu.wType = .nostart
  program : ∀ wu ∈ sch.units, wu.program.isSome
  length_le : sch.units.length ≤ sch.capacity

/-- A scheduler before its thread starts: no program runs or ever ran. -/
structure Scheduler.Initial (i : ℕ) (s : Scheduler) : Prop where
  self : s.self = i
  schedule : s.schedule.Loaded
  pid : ∀ p, (s.prog p).pid = 0
  starts : ∀ p, (s.prog p).starts = 0
  stopMode : ∀ p, (s.prog p).stopMode = 0
  running : ∀ pid, s.running pid = none
  elist : s.elist = []

/-- PETeR when its threads start: it has no children. -/
structure Process.Initial (σ : Process) : Prop where
  children : σ.os.children = []
  trace : σ.os.trace = []
  pc : ∀ i, (σ.thread i).pc = .loop
  scheduler : ∀ i, (σ.thread i).s.Initial i

/-! ## Configurations -/

/-- `add_workunit` for each unit of the `<init>` sections: its type, time and program. -/
def Schedule.ofInit (init : List (WType × ℤ × ProgPtr)) : Schedule :=
  init.foldl (fun sch u => sch.pushBack ⟨sch.nextAddr, u.1, u.2.1, some u.2.2⟩) {}

/-- What a configuration says about one scheduler: its programs and the units for them. -/
structure SchedulerConfig where
  programs : List Program := []
  init : List (WType × ℤ × ProgPtr) := []

/-- No program of the configuration runs or ever ran. -/
structure SchedulerConfig.Fresh (c : SchedulerConfig) : Prop where
  programs : ∀ p ∈ c.programs, p.pid = 0 ∧ p.starts = 0 ∧ p.stopMode = 0
  init : ∀ u ∈ c.init, u.1 = .runProg ∨ u.1 = .endProg ∨ u.1 = .nostart

def Scheduler.configured (self : ℕ) (c : SchedulerConfig) : Scheduler where
  self := self
  name := str "default"
  schedule := .ofInit c.init
  programs := List.range c.programs.length
  prog p := c.programs.getD p { name := [] }

/-- PETeR with the schedulers of a configuration. -/
def Process.configured (config : List SchedulerConfig) : Process where
  count := config.length
  thread i := { s := .configured i (config.getD i {}) }
  os := ⟨[], []⟩

/-- A unit at the next address keeps the addresses apart. -/
theorem nodup_addr_append {l : List WorkUnit} {wu : WorkUnit} (h : (l.map WorkUnit.addr).Nodup)
    (hlt : ∀ u ∈ l, u.addr < wu.addr) : ((l ++ [wu]).map WorkUnit.addr).Nodup := by
  rw [List.map_append, List.nodup_append]
  refine ⟨h, by simp, ?_⟩
  rintro a ha b hb rfl
  obtain ⟨u, hu, rfl⟩ := List.mem_map.1 ha
  exact (hlt u hu).ne (by simpa using hb)

theorem addr_lt_append {l : List WorkUnit} {wu : WorkUnit} (hlt : ∀ u ∈ l, u.addr < wu.addr) :
    ∀ u ∈ l ++ [wu], u.addr < wu.addr + 1 := by
  intro u hu
  rcases List.mem_append.1 hu with hu | hu
  · exact (hlt u hu).trans (Nat.lt_succ_self _)
  · rw [List.mem_singleton.1 hu]
    exact Nat.lt_succ_self _

theorem Schedule.Loaded.pushBack {sch : Schedule} (h : sch.Loaded) {ty : WType} {t : ℤ}
    {p : ProgPtr} (hty : ty = .runProg ∨ ty = .endProg ∨ ty = .nostart) :
    (sch.pushBack ⟨sch.nextAddr, ty, t, some p⟩).Loaded := by
  constructor
  case added => simp [Schedule.pushBack, h.added]
  case handled => exact h.handled
  case passStart => exact h.passStart
  case nodup => exact nodup_addr_append h.nodup h.addr_lt
  case addr_lt => exact addr_lt_append h.addr_lt
  case wType =>
    intro wu hwu
    simp only [Schedule.pushBack, List.mem_append, List.mem_singleton] at hwu
    rcases hwu with hwu | rfl
    · exact h.wType wu hwu
    · exact hty
  case program =>
    intro wu hwu
    simp only [Schedule.pushBack, List.mem_append, List.mem_singleton] at hwu
    rcases hwu with hwu | rfl
    · exact h.program wu hwu
    · rfl
  case length_le =>
    have := h.length_le
    simp only [Schedule.pushBack, List.length_append, List.length_singleton]
    split_ifs <;> omega

theorem Schedule.ofInit_loaded {init : List (WType × ℤ × ProgPtr)}
    (h : ∀ u ∈ init, u.1 = .runProg ∨ u.1 = .endProg ∨ u.1 = .nostart) :
    (Schedule.ofInit init).Loaded := by
  have hempty : ({} : Schedule).Loaded := by constructor <;> simp
  unfold ofInit
  generalize ({} : Schedule) = sch at hempty
  induction init generalizing sch with
  | nil => exact hempty
  | cons u init ih =>
    obtain ⟨hu, h⟩ := List.forall_mem_cons.1 h
    exact ih h _ (hempty.pushBack hu)

/-- A configured process is one of the initial states. -/
theorem Process.configured_initial {config : List SchedulerConfig}
    (h : ∀ c ∈ config, c.Fresh) : (Process.configured config).Initial := by
  have hfresh : ∀ i, (config.getD i {}).Fresh := by
    intro i
    rw [List.getD_eq_getElem?_getD]
    cases hc : config[i]? with
    | none => exact ⟨by simp, by simp⟩
    | some c => exact h c (List.mem_of_getElem? hc)
  have hprog : ∀ i p, let q := ((config.getD i {}).programs.getD p { name := [] })
      q.pid = 0 ∧ q.starts = 0 ∧ q.stopMode = 0 := by
    intro i p
    rw [List.getD_eq_getElem?_getD]
    cases hq : (config.getD i {}).programs[p]? with
    | none => exact ⟨rfl, rfl, rfl⟩
    | some q => exact (hfresh i).programs q (List.mem_of_getElem? hq)
  refine ⟨rfl, rfl, fun _ => rfl, fun i => ?_⟩
  constructor
  case self => rfl
  case schedule => exact Schedule.ofInit_loaded (hfresh i).init
  case pid => exact fun p => (hprog i p).1
  case starts => exact fun p => (hprog i p).2.1
  case stopMode => exact fun p => (hprog i p).2.2
  case running => exact fun _ => rfl
  case elist => rfl

/-- One program with one command, started at once. -/
def SchedulerConfig.sleeper : SchedulerConfig where
  programs := [{ name := str "sleeper", seq := [str "/bin/sleep 10"] }]
  init := [(.runProg, 0, 0)]

theorem SchedulerConfig.sleeper_fresh : SchedulerConfig.sleeper.Fresh :=
  ⟨by simp [sleeper], by simp [sleeper]⟩

theorem Process.sleeper_initial : (Process.configured [.sleeper]).Initial :=
  configured_initial (List.forall_mem_singleton.2 SchedulerConfig.sleeper_fresh)

end Peter
