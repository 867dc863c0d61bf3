import Peter.Actions
import Peter.Config
import Peter.Deeds
import Peter.Linked
import Peter.Socket

/-!
# Loading a configuration

`Config::read_config` from the parsed file on, with `WorkUnit( XMLNode* )`, and the process as it is
when its threads start.  Where the loader ends the program, with or without a message, there is no
configuration but a `Halt`.
-/

namespace Peter

/-! ## Init actions -/

/-- What the system answers while the file is loaded: the clock when child `j` of the `<init>` of
the program element `k` is read, what `strptime` and `mktime` make of a date, and host names. -/
structure LoadEnv where
  utc : ℕ → ℕ → ℤ := fun _ _ => 0
  mktime : Str → Option ℤ := fun _ => none
  dnslookup : Str → Str := id

/-- `t_at` of a start or stop unit; the sum of two `long` may not overflow. -/
def unitTime (e : LoadEnv) (utc : ℤ) (x : XMLNode) : Except ReadFault ℤ :=
  let date := x.getAttribute (str "at") (str "0")
  if date.length = 19 then .ok ((e.mktime date).getD utc)
  else match stol (x.getAttribute (str "after") (str "0")) with
    | none => .error .thrown
    | some after =>
      if -9223372036854775808 ≤ utc + after ∧ utc + after ≤ 9223372036854775807 then
        .ok (utc + after)
      else .error .undefined

/-- `WorkUnit( XMLNode* )`: the type and `t_at`, which is not set for an unknown element. -/
def readWorkUnit (e : LoadEnv) (utc : ℤ) (x : XMLNode) : Except ReadFault (WType × ℤ) :=
  if x.name = str "start" then (unitTime e utc x).map fun t => (.runProg, t)
  else if x.name = str "stop" then (unitTime e utc x).map fun t => (.endProg, t)
  else if x.name = str "nostart" then .ok (.nostart, utc)
  else .ok (.notinit, 0)

/-- The loop over the children of `<init>` from child `j` on: the units it adds, and the fault that
ended it. -/
def readUnits (e : LoadEnv) (k : ℕ) : ℕ → List XMLNode → List (WType × ℤ) × Option ReadFault
  | _, [] => ([], none)
  | j, x :: xs => match readWorkUnit e (e.utc k j) x with
    | .error f => ([], some f)
    | .ok u =>
      let (us, f) := readUnits e k (j + 1) xs
      (if u.1 = .notinit then us else u :: us, f)

/-- The start up actions of a program: whatever is thrown, the default unit is added. -/
def readInit (e : LoadEnv) (k : ℕ) (prog : XMLNode) : Except ReadFault (List (WType × ℤ)) :=
  match prog.getNamedChild (str "init") with
  | none => .ok [(.runProg, e.utc k 0)]
  | some init => match readUnits e k 0 init.children with
    | (us, none) => .ok us
    | (us, some .thrown) => .ok (us ++ [(.runProg, e.utc k init.children.length)])
    | (_, some .undefined) => .error .undefined

/-! ## Programs and schedulers -/

/-- A scheduler of the configuration, under its name. -/
structure NamedConfig extends SchedulerConfig where
  name : Str

/-- The children of `<schedulers>`, up to one with a rate that is no number. -/
def readSchedulers : List XMLNode → List NamedConfig
  | [] => []
  | x :: xs => match stol (x.getAttribute (str "rate") (str "0")) with
    | some _ => { name := x.getAttribute (str "name") (str "??") } :: readSchedulers xs
    | none => []

/-- The name of the scheduler of a program. -/
def schedulerName (prog : XMLNode) : Str := prog.findContents (str "scheduler") (str "default")

/-- `add_workunit` for the units and `add_program`. -/
def NamedConfig.add (s : NamedConfig) (prog : Program) (units : List (WType × ℤ)) : NamedConfig :=
  { s with
    programs := s.programs ++ [prog]
    init := s.init ++ units.map fun u => (u.1, u.2, s.programs.length) }

/-- The program element `k`.  `get_scheduler` takes the first scheduler with the name. -/
def readElement (e : LoadEnv) (k : ℕ) (x : XMLNode) (scheds : List NamedConfig) :
    Except ReadFault (List NamedConfig) :=
  match scheds.findIdx? fun s => s.name = schedulerName x with
  | none => .error .thrown
  | some i => do
    let prog ← readProgram x
    let units ← readInit e k x
    return scheds.modify i fun s => s.add prog units

/-- The loop over the program elements from element `k` on. -/
def readPrograms (e : LoadEnv) : ℕ → List XMLNode → List NamedConfig →
    Except ReadFault (List NamedConfig)
  | _, [], scheds => .ok scheds
  | k, x :: xs, scheds => match readElement e k x scheds with
    | .ok scheds => readPrograms e (k + 1) xs scheds
    | .error f => .error f

/-! ## The file -/

/-- An attribute with a list of values, without its blanks. -/
def readList (x : XMLNode) (a d : Str) : List Str :=
  tokenize ((x.getAttribute a d).filter fun c => c ≠ UInt8.ofNat 32) [] (UInt8.ofNat 44)

/-- The `socket` element. -/
def readSocket (e : LoadEnv) (x : XMLNode) (cfg : Config) : Except ReadFault Config :=
  match stoi (x.getAttribute (str "port") (str "2048")) with
  | none => .error .thrown
  | some port =>
    if port > 0 then .ok { cfg with
      hAllow := (readList x (str "allow") (str "localhost")).map e.dnslookup
      cAllow := readList x (str "commands") (str "info,log,status") }
    else .ok cfg

/-- The `pidfile` element: the last character of its directory is looked at. -/
def readPidfile : Option XMLNode → Except ReadFault Unit
  | some x => if x.getAttribute (str "dir") (str "./") = [] then .error .undefined else .ok ()
  | none => .ok ()

/-- The `general` section: the schedulers and what the socket thread is allowed to do. -/
def readGeneral (e : LoadEnv) (general : XMLNode) (cfg : Config) :
    Except ReadFault (List NamedConfig × Config) := do
  let scheds := match general.getNamedChild (str "schedulers") with
    | some x => readSchedulers x.children
    | none => []
  let otpOnly := match general.getNamedChild (str "otp") with
    | some x => decide (x.getAttribute (str "only") (str "0") ≠ str "0")
    | none => false
  readPidfile (general.getNamedChild (str "pidfile"))
  let sock ← orThrow (general.getNamedChild (str "socket"))
  let cfg ← readSocket e sock { cfg with otpOnly }
  return ({ name := str "default" } :: scheds, cfg)

/-- `Config::read_config`, after `parse_file`. -/
def readConfig (e : LoadEnv) (config : XMLNode) (cfg : Config) :
    Except Halt (List NamedConfig × Config) :=
  let loaded : Except ReadFault (List NamedConfig × Config) := do
    let general ← orThrow (config.getNamedChild (str "general"))
    let (scheds, cfg) ← readGeneral e general cfg
    let programs ← orThrow (config.getNamedChild (str "programs"))
    return (← readPrograms e 0 programs.children scheds, cfg)
  match loaded with
  | .ok r => .ok r
  | .error .thrown => .error (.exited 1)
  | .error .undefined => .error .undefined

/-- A file with these program elements and nothing else but a socket. -/
def configOf (programs : List XMLNode) : XMLNode :=
  { name := str "config"
    children := [{ name := str "general", children := [{ name := str "socket" }] },
      { name := str "programs", children := programs }] }

/-- A program element with no attribute but its name. -/
def elementOf (name : Str) (children : List XMLNode) : XMLNode :=
  { name := str "program", attributes := [(str "name", name)], children }

/-! ## What a loaded file gives each scheduler -/

/-- The program elements for scheduler `i` of `scheds`, each with its place in the file. -/
def elementsFor (scheds : List NamedConfig) (i k : ℕ) (xs : List XMLNode) : List (XMLNode × ℕ) :=
  (xs.zipIdx k).filter fun y => (scheds.map NamedConfig.name).findIdx?
    (fun name => name = schedulerName y.1) = some i

theorem mem_elementsFor {scheds : List NamedConfig} {i k : ℕ} {xs : List XMLNode}
    {y : XMLNode × ℕ} : y ∈ elementsFor scheds i k xs ↔ y ∈ xs.zipIdx k ∧
      (scheds.map NamedConfig.name).findIdx? (fun name => name = schedulerName y.1) = some i := by
  rw [elementsFor, List.mem_filter, decide_eq_true_eq]

/-- From `s` to `s'` the scheduler is given the programs of some elements, in order. -/
inductive Adds (e : LoadEnv) : List (XMLNode × ℕ) → NamedConfig → NamedConfig → Prop
  | nil {s : NamedConfig} : Adds e [] s s
  | cons {x : XMLNode} {k : ℕ} {ys : List (XMLNode × ℕ)} {s s' : NamedConfig} {prog : Program}
      {units : List (WType × ℤ)} (hprog : readProgram x = .ok prog)
      (hunits : readInit e k x = .ok units) (h : Adds e ys (s.add prog units) s') :
      Adds e ((x, k) :: ys) s s'

theorem readElement_cases {e : LoadEnv} {k : ℕ} {x : XMLNode} {scheds scheds' : List NamedConfig}
    (h : readElement e k x scheds = .ok scheds') : ∃ i prog units,
      (scheds.map NamedConfig.name).findIdx? (fun name => name = schedulerName x) = some i ∧
      readProgram x = .ok prog ∧ readInit e k x = .ok units ∧
      scheds' = scheds.modify i fun s => s.add prog units := by
  unfold readElement at h
  cases hi : scheds.findIdx? fun s => s.name = schedulerName x with
  | none => rw [hi] at h; cases h
  | some i =>
    rw [hi] at h
    obtain ⟨prog, hprog, h⟩ := bind_eq_ok h
    obtain ⟨units, hunits, h⟩ := bind_eq_ok h
    cases h
    refine ⟨i, prog, units, ?_, hprog, hunits, rfl⟩
    rw [List.findIdx?_map]
    exact hi

theorem elementsFor_congr {scheds scheds' : List NamedConfig}
    (h : scheds'.map NamedConfig.name = scheds.map NamedConfig.name) (i k : ℕ)
    (xs : List XMLNode) : elementsFor scheds' i k xs = elementsFor scheds i k xs := by
  rw [elementsFor, elementsFor, h]

theorem map_name_modify (scheds : List NamedConfig) (i : ℕ) (prog : Program)
    (units : List (WType × ℤ)) : (scheds.modify i fun s => s.add prog units).map NamedConfig.name =
      scheds.map NamedConfig.name := by
  refine List.ext_getElem? fun j => ?_
  rw [List.getElem?_map, List.getElem?_map, List.getElem?_modify]
  cases scheds[j]? with
  | none => rfl
  | some s =>
    by_cases hj : i = j
    · simp [hj, NamedConfig.add]
    · simp [hj]

theorem readPrograms_names {e : LoadEnv} {k : ℕ} {xs : List XMLNode}
    {scheds scheds' : List NamedConfig} (h : readPrograms e k xs scheds = .ok scheds') :
    scheds'.map NamedConfig.name = scheds.map NamedConfig.name ∧
      ∀ x ∈ xs, ∃ i, (scheds.map NamedConfig.name).findIdx?
        (fun name => name = schedulerName x) = some i := by
  induction xs generalizing k scheds with
  | nil =>
    cases h
    exact ⟨rfl, by simp⟩
  | cons x xs ih =>
    rw [readPrograms] at h
    cases hx : readElement e k x scheds with
    | error f => rw [hx] at h; cases h
    | ok scheds₁ =>
      rw [hx] at h
      obtain ⟨j, prog, units, hj, -, -, rfl⟩ := readElement_cases hx
      obtain ⟨hnames, hall⟩ := ih h
      rw [map_name_modify] at hnames hall
      exact ⟨hnames, List.forall_mem_cons.2 ⟨⟨j, hj⟩, hall⟩⟩

/-- The loader gives each scheduler the programs of its elements. -/
theorem readPrograms_adds {e : LoadEnv} {k : ℕ} {xs : List XMLNode} {scheds scheds' : List NamedConfig}
    (h : readPrograms e k xs scheds = .ok scheds') {i : ℕ} {s' : NamedConfig}
    (hs' : scheds'[i]? = some s') :
    ∃ s, scheds[i]? = some s ∧ Adds e (elementsFor scheds i k xs) s s' := by
  induction xs generalizing k scheds with
  | nil =>
    cases h
    exact ⟨s', hs', .nil⟩
  | cons x xs ih =>
    rw [readPrograms] at h
    cases hx : readElement e k x scheds with
    | error f => rw [hx] at h; cases h
    | ok scheds₁ =>
      rw [hx] at h
      obtain ⟨j, prog, units, hj, hprog, hunits, rfl⟩ := readElement_cases hx
      obtain ⟨s, hs, hadds⟩ := ih h
      rw [elementsFor_congr (map_name_modify ..)] at hadds
      rw [List.getElem?_modify] at hs
      obtain ⟨s₀, hs₀, rfl⟩ : ∃ s₀, scheds[i]? = some s₀ ∧
          (if j = i then s₀.add prog units else s₀) = s := by simpa using hs
      refine ⟨s₀, hs₀, ?_⟩
      have hzip : elementsFor scheds i k (x :: xs) = if j = i then
          (x, k) :: elementsFor scheds i (k + 1) xs else elementsFor scheds i (k + 1) xs := by
        rw [elementsFor, elementsFor, List.zipIdx_cons, List.filter_cons]
        simp only [hj, Option.some.injEq, decide_eq_true_eq]
      rw [hzip]
      by_cases hji : j = i
      · rw [if_pos hji] at hadds ⊢
        exact .cons hprog hunits hadds
      · rw [if_neg hji] at hadds ⊢
        exact hadds

/-- What the element says of its program, of which no process ever ran. -/
theorem readProgram_cases {x : XMLNode} {prog : Program} (h : readProgram x = .ok prog) :
    x.attribute? (str "name") = some prog.name ∧ prog.seq = readSeq x ∧
      prog.life = ⟨0, 0, 0, 0, 0⟩ ∧ prog.stopMode = 0 := by
  unfold readProgram at h
  obtain ⟨name, hname, h⟩ := bind_eq_ok h
  obtain ⟨stopSig, -, h⟩ := bind_eq_ok h
  obtain ⟨limits, -, h⟩ := bind_eq_ok h
  obtain ⟨tables, -, h⟩ := bind_eq_ok h
  cases h
  exact ⟨orThrow_eq_ok hname, rfl, rfl, rfl⟩

theorem readWorkUnit_type {e : LoadEnv} {utc : ℤ} {x : XMLNode} {u : WType × ℤ}
    (h : readWorkUnit e utc x = .ok u) (hu : u.1 ≠ .notinit) :
    u.1 = .runProg ∨ u.1 = .endProg ∨ u.1 = .nostart := by
  unfold readWorkUnit at h
  split_ifs at h
  · cases ht : unitTime e utc x <;> rw [ht] at h <;> cases h
    exact .inl rfl
  · cases ht : unitTime e utc x <;> rw [ht] at h <;> cases h
    exact .inr (.inl rfl)
  · cases h
    exact .inr (.inr rfl)
  · cases h
    exact absurd rfl hu

theorem readUnits_types (e : LoadEnv) (k j : ℕ) (xs : List XMLNode) :
    ∀ u ∈ (readUnits e k j xs).1, u.1 = .runProg ∨ u.1 = .endProg ∨ u.1 = .nostart := by
  induction xs generalizing j with
  | nil => simp [readUnits]
  | cons x xs ih =>
    rw [readUnits]
    cases hx : readWorkUnit e (e.utc k j) x with
    | error f => simp
    | ok u =>
      dsimp only
      split_ifs with hno
      · exact ih (j + 1)
      · exact List.forall_mem_cons.2 ⟨readWorkUnit_type hx hno, ih (j + 1)⟩

theorem readInit_types {e : LoadEnv} {k : ℕ} {prog : XMLNode} {units : List (WType × ℤ)}
    (h : readInit e k prog = .ok units) :
    ∀ u ∈ units, u.1 = .runProg ∨ u.1 = .endProg ∨ u.1 = .nostart := by
  unfold readInit at h
  split at h
  · cases h
    simp
  · next init _ =>
    have htypes := readUnits_types e k 0 init.children
    split at h
    · next us hus =>
      cases h
      rwa [hus] at htypes
    · next us hus =>
      cases h
      rw [hus] at htypes
      exact List.forall_mem_append.2 ⟨htypes, by simp⟩
    · cases h

namespace Adds

variable {e : LoadEnv} {ys : List (XMLNode × ℕ)} {s s' : NamedConfig}

theorem programs (h : Adds e ys s s') : ∃ progs, s'.programs = s.programs ++ progs ∧
    List.Forall₂ (fun y prog => readProgram y.1 = .ok prog) ys progs := by
  induction h with
  | nil => exact ⟨[], by simp, .nil⟩
  | @cons x k ys s s' prog units hprog _ _ ih =>
    obtain ⟨progs, hs, hall⟩ := ih
    exact ⟨prog :: progs, by rw [hs]; simp [NamedConfig.add], .cons hprog hall⟩

/-- The units are those of the elements, each for the program of its element. -/
theorem mem_init (h : Adds e ys s s') {ty : WType} {t : ℤ} {p : ℕ} :
    (ty, t, p) ∈ s'.init ↔ (ty, t, p) ∈ s.init ∨ ∃ m y units, ys[m]? = some y ∧
      readInit e y.2 y.1 = .ok units ∧ (ty, t) ∈ units ∧ p = s.programs.length + m := by
  induction h with
  | nil => simp
  | @cons x k ys s s' prog units hprog hunits _ ih =>
    rw [ih]
    have hadd : (ty, t, p) ∈ (s.add prog units).init ↔
        (ty, t, p) ∈ s.init ∨ (ty, t) ∈ units ∧ p = s.programs.length := by
      simp [NamedConfig.add, eq_comm]
    have hlen : (s.add prog units).programs.length = s.programs.length + 1 := by
      simp [NamedConfig.add]
    rw [hadd, hlen]
    constructor
    · rintro ((hs | ⟨hu, hp⟩) | ⟨m, y, us, hy, hus, hu, hp⟩)
      · exact .inl hs
      · exact .inr ⟨0, (x, k), units, rfl, hunits, hu, hp⟩
      · exact .inr ⟨m + 1, y, us, hy, hus, hu, by omega⟩
    · rintro (hs | ⟨m, y, us, hy, hus, hu, hp⟩)
      · exact .inl (.inl hs)
      · cases m with
        | zero =>
          cases hy
          cases hunits.symm.trans hus
          exact .inl (.inr ⟨hu, hp⟩)
        | succ m => exact .inr ⟨m, y, us, hy, hus, hu, by omega⟩

end Adds

/-- The program elements of a file. -/
def programElements (config : XMLNode) : List XMLNode :=
  match config.getNamedChild (str "programs") with
  | some programs => programs.children
  | none => []

theorem readSchedulers_empty (xs : List XMLNode) :
    ∀ s ∈ readSchedulers xs, s.toSchedulerConfig = {} := by
  induction xs with
  | nil => simp [readSchedulers]
  | cons x xs ih =>
    rw [readSchedulers]
    split
    · exact List.forall_mem_cons.2 ⟨rfl, ih⟩
    · simp

theorem readGeneral_empty {e : LoadEnv} {general : XMLNode} {cfg cfg' : Config}
    {scheds : List NamedConfig} (h : readGeneral e general cfg = .ok (scheds, cfg')) :
    ∀ s ∈ scheds, s.toSchedulerConfig = {} := by
  unfold readGeneral at h
  obtain ⟨-, -, h⟩ := bind_eq_ok h
  obtain ⟨sock, -, h⟩ := bind_eq_ok h
  obtain ⟨cfg₁, -, h⟩ := bind_eq_ok h
  cases h
  refine List.forall_mem_cons.2 ⟨rfl, ?_⟩
  split
  · exact readSchedulers_empty _
  · simp

/-- An accepted file: each scheduler has the programs and units of its elements. -/
theorem readConfig_cases {e : LoadEnv} {config : XMLNode} {cfg cfg' : Config}
    {scheds : List NamedConfig} (h : readConfig e config cfg = .ok (scheds, cfg')) :
    (∀ i s, scheds[i]? = some s → ∃ s₀ : NamedConfig, s₀.toSchedulerConfig = {} ∧
      Adds e (elementsFor scheds i 0 (programElements config)) s₀ s) ∧
    ∀ x ∈ programElements config, ∃ i < scheds.length, (scheds.map NamedConfig.name).findIdx?
        (fun name => name = schedulerName x) = some i := by
  unfold readConfig at h
  dsimp only at h
  split at h
  · next r hr =>
    cases h
    obtain ⟨general, -, hr⟩ := bind_eq_ok hr
    obtain ⟨⟨scheds₀, cfg₀⟩, hgeneral, hr⟩ := bind_eq_ok hr
    obtain ⟨programs, hprograms, hr⟩ := bind_eq_ok hr
    obtain ⟨scheds₁, hread, hr⟩ := bind_eq_ok hr
    cases hr
    have helements : programElements config = programs.children := by
      rw [programElements, orThrow_eq_ok hprograms]
    obtain ⟨hnames, hall⟩ := readPrograms_names hread
    rw [helements]
    refine ⟨fun i s hs => ?_, fun x hx => ?_⟩
    · obtain ⟨s₀, hs₀, hadds⟩ := readPrograms_adds hread hs
      rw [elementsFor_congr hnames]
      exact ⟨s₀, readGeneral_empty hgeneral s₀ (List.mem_of_getElem? hs₀), hadds⟩
    · obtain ⟨i, hi⟩ := hall x hx
      have hlt := (List.findIdx?_eq_some_iff_findIdx_eq.1 hi).1
      rw [← hnames] at hi hlt
      exact ⟨i, by simpa using hlt, hi⟩
  · cases h
  · cases h

/-! ## The process -/

/-- PETeR with the schedulers of a loaded file. -/
def Process.loaded (scheds : List NamedConfig) : Process :=
  let σ := Process.configured (scheds.map NamedConfig.toSchedulerConfig)
  { σ with thread := fun i => { σ.thread i with s := { (σ.thread i).s with
      name := (scheds[i]?.map NamedConfig.name).getD (str "default") } } }

theorem Schedule.ofInit_tasks (init : List (WType × ℤ × ProgPtr)) :
    (Schedule.ofInit init).units.map WorkUnit.task =
      init.map fun u => (u.1, u.2.1, some u.2.2) := by
  have hfold : ∀ (l : List (WType × ℤ × ProgPtr)) (sch : Schedule),
      (l.foldl (fun sch u => sch.pushBack ⟨sch.nextAddr, u.1, u.2.1, some u.2.2⟩)
          sch).units.map WorkUnit.task =
        sch.units.map WorkUnit.task ++ l.map fun u => (u.1, u.2.1, some u.2.2) := by
    intro l
    induction l with
    | nil => simp
    | cons u l ih =>
      intro sch
      rw [List.foldl_cons, ih]
      simp [Schedule.pushBack, WorkUnit.task]
  exact hfold init {}

/-- A loaded scheduler has a program for each of its elements, of which no process ever ran, and
units for these programs. -/
theorem Adds.fresh {e : LoadEnv} {ys : List (XMLNode × ℕ)} {s s' : NamedConfig}
    (h : Adds e ys s s') (hs : s.toSchedulerConfig = {}) :
    s'.Fresh ∧ s'.Linked ∧ ∀ p ∈ s'.programs, p.life = ⟨0, 0, 0, 0, 0⟩ := by
  obtain ⟨progs, hprogs, hall⟩ := h.programs
  have hempty : s.programs = [] := congrArg SchedulerConfig.programs hs
  have hnone : s.init = [] := congrArg SchedulerConfig.init hs
  rw [hempty, List.nil_append] at hprogs
  have hread : ∀ p ∈ s'.programs, p.life = ⟨0, 0, 0, 0, 0⟩ ∧ p.stopMode = 0 := by
    rw [hprogs]
    intro p hp
    obtain ⟨m, hm, rfl⟩ := List.getElem_of_mem hp
    obtain ⟨-, -, hlife, hstop⟩ :=
      readProgram_cases (hall.get (by rw [hall.length_eq]; exact hm) hm)
    exact ⟨hlife, hstop⟩
  refine ⟨⟨fun p hp => ?_, fun u hu => ?_⟩, fun u hu => ?_, fun p hp => (hread p hp).1⟩
  · obtain ⟨hlife, hstop⟩ := hread p hp
    exact ⟨congrArg Life.pid hlife, congrArg Life.starts hlife, hstop⟩
  · rcases (h.mem_init (p := u.2.2)).1 hu with hu | ⟨m, y, units, -, hunits, hu, -⟩
    · rw [hnone] at hu
      cases hu
    · exact readInit_types hunits _ hu
  · rcases (h.mem_init (p := u.2.2)).1 hu with hu | ⟨m, y, units, hy, -, -, hp⟩
    · rw [hnone] at hu
      cases hu
    · rw [hp, hempty, hprogs, List.length_nil, Nat.zero_add, ← hall.length_eq]
      exact (List.getElem?_eq_some_iff.1 hy).1

/-- A loaded file starts PETeR in one of the initial states. -/
theorem loaded_initial {e : LoadEnv} {config : XMLNode} {cfg cfg' : Config}
    {scheds : List NamedConfig} (h : readConfig e config cfg = .ok (scheds, cfg')) :
    (Process.loaded scheds).Initial ∧ (Process.loaded scheds).Newborn ∧
      (Process.loaded scheds).Linked := by
  have hall : ∀ c ∈ scheds.map NamedConfig.toSchedulerConfig, c.Fresh ∧ c.Linked ∧
      ∀ p ∈ c.programs, p.life = ⟨0, 0, 0, 0, 0⟩ := by
    intro c hc
    obtain ⟨s, hs, rfl⟩ := List.mem_map.1 hc
    obtain ⟨i, hi, rfl⟩ := List.getElem_of_mem hs
    obtain ⟨s₀, hempty, hadds⟩ := (readConfig_cases h).1 i _ (List.getElem?_eq_getElem hi)
    exact hadds.fresh hempty
  have hinit := Process.configured_initial fun c hc => (hall c hc).1
  refine ⟨⟨hinit.children, hinit.trace, hinit.pc, fun i => ?_⟩,
    Process.configured_newborn fun c hc => (hall c hc).2.2, fun i => ?_⟩
  · obtain ⟨h1, h2, h3, h4, h5, h6, h7⟩ := hinit.scheduler i
    exact ⟨h1, h2, h3, h4, h5, h6, h7⟩
  · obtain ⟨h1, h2⟩ := Process.configured_linked (fun c hc => (hall c hc).2.1) i
    exact ⟨h1, h2⟩

end Peter
