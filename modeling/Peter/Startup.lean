import Mathlib.Data.List.Forall2
import Peter.Actions
import Peter.Load

/-!
# Start up actions

What the `<init>` elements of a file say, as a list of units for each scheduler, and the schedule that
`read_config` makes of them.  `WorkUnit( XMLNode* )` does not look at the `name` attribute and
`read_config` gives every unit the program that the `<init>` belongs to, so that the schedule is the
list exactly when no attribute names another program (`schedules_iff`).
-/

namespace Peter

/-! ## What the file says -/

/-- A unit that a file asks for; without a name it is for the enclosing program. -/
structure UnitSpec where
  wType : WType
  tAt : ℤ
  name : Option Str
  deriving DecidableEq, Repr

/-- The value of the `after` attribute. -/
def XMLNode.after (x : XMLNode) : ℤ := (stol (x.getAttribute (str "after") (str "0"))).getD 0

/-- What a child of `<init>` is. -/
def XMLNode.initType (x : XMLNode) : Option WType :=
  if x.name = str "start" then some .runProg
  else if x.name = str "stop" then some .endProg
  else if x.name = str "nostart" then some .nostart
  else none

/-- The unit that a child of `<init>` asks for when the clock is `utc`. -/
def XMLNode.unitSpec (utc : ℤ) (x : XMLNode) : Option UnitSpec :=
  x.initType.map fun ty => ⟨ty, utc + x.after, x.attribute? (str "name")⟩

/-- The units of a program element: one for each action in `<init>`, and a start without one. -/
def initSpecs (e : LoadEnv) (k : ℕ) (prog : XMLNode) : List UnitSpec :=
  match prog.getNamedChild (str "init") with
  | none => [⟨.runProg, e.utc k 0, none⟩]
  | some init => (init.children.zipIdx).filterMap fun y => y.1.unitSpec (e.utc k y.2)

/-- The units of the program elements from the program `m` of their scheduler on. -/
def specsFrom (e : LoadEnv) : ℕ → List (XMLNode × ℕ) → List (UnitSpec × ProgPtr)
  | _, [] => []
  | m, y :: ys => (initSpecs e y.2 y.1).map (fun spec => (spec, m)) ++ specsFrom e (m + 1) ys

/-- The unit is the one asked for in the `<init>` of program `spec.2`, where `programs` are those of
the scheduler. -/
def UnitSpec.Met (programs : List Program) (spec : UnitSpec × ProgPtr) (u : Task) : Prop :=
  u.1 = spec.1.wType ∧ u.2.1 = spec.1.tAt ∧ match spec.1.name with
    | none => u.2.2 = some spec.2
    | some name => (u.2.2.bind fun p => programs[p]?).map Program.name = some name

/-- Every action in the `<init>` of a program element has a number in `after`. -/
def XMLNode.WellFormedInit (prog : XMLNode) : Prop :=
  ∀ init, prog.getNamedChild (str "init") = some init → ∀ x ∈ init.children, x.initType.isSome →
    (stol (x.getAttribute (str "after") (str "0"))).isSome

/-! ## What the loader makes of it -/

/-- The loader gives an action of the element its program and time. -/
structure XMLNode.Heeded (e : LoadEnv) (utc : ℤ) (x prog : XMLNode) : Prop where
  /-- No other program is named. -/
  name : ∀ name, x.attribute? (str "name") = some name → prog.attribute? (str "name") = some name
  /-- A date in `at` is not used, or says the same. -/
  date : x.initType ≠ some .nostart → (x.getAttribute (str "at") (str "0")).length = 19 →
    (e.mktime (x.getAttribute (str "at") (str "0"))).getD utc = utc + x.after
  nostart : x.initType = some .nostart → x.after = 0

/-- So it does with all actions of an element. -/
def XMLNode.HeededInit (e : LoadEnv) (k : ℕ) (prog : XMLNode) : Prop :=
  ∀ init, prog.getNamedChild (str "init") = some init → ∀ y ∈ init.children.zipIdx,
    y.1.initType.isSome → y.1.Heeded e (e.utc k y.2) prog

namespace XMLNode

variable {e : LoadEnv} {utc : ℤ} {x : XMLNode}

/-- The time the loader gives a well formed action. -/
def loadTime (e : LoadEnv) (utc : ℤ) (x : XMLNode) (ty : WType) : ℤ :=
  if ty = .nostart then utc
  else if (x.getAttribute (str "at") (str "0")).length = 19 then
    (e.mktime (x.getAttribute (str "at") (str "0"))).getD utc
  else utc + x.after

theorem unitTime_eq (e : LoadEnv) (utc : ℤ)
    (hwf : (stol (x.getAttribute (str "after") (str "0"))).isSome) {ty : WType}
    (hty : ty ≠ .nostart) :
    unitTime e utc x = .error .undefined ∨ unitTime e utc x = .ok (x.loadTime e utc ty) := by
  obtain ⟨n, hn⟩ := Option.isSome_iff_exists.1 hwf
  unfold unitTime
  rw [hn, loadTime, if_neg hty, XMLNode.after, hn]
  dsimp only
  split_ifs
  · exact .inr rfl
  · exact .inr rfl
  · exact .inl rfl

/-- What the loader makes of a child of `<init>`, unless the behaviour is undefined. -/
theorem readWorkUnit_eq (e : LoadEnv) (utc : ℤ) (hwf : x.initType.isSome →
    (stol (x.getAttribute (str "after") (str "0"))).isSome) :
    readWorkUnit e utc x = .error .undefined ∨ readWorkUnit e utc x =
      .ok ((x.initType.map fun ty => (ty, x.loadTime e utc ty)).getD (.notinit, 0)) := by
  unfold readWorkUnit
  by_cases hstart : x.name = str "start"
  · have hty : x.initType = some .runProg := if_pos hstart
    rw [if_pos hstart, hty]
    rcases unitTime_eq e utc (hwf (by simp [hty]))
      (show WType.runProg ≠ .nostart by decide) with h | h
    · exact .inl (by rw [h]; rfl)
    · exact .inr (by rw [h]; rfl)
  · by_cases hstop : x.name = str "stop"
    · have hty : x.initType = some .endProg := by rw [initType, if_neg hstart, if_pos hstop]
      rw [if_neg hstart, if_pos hstop, hty]
      rcases unitTime_eq e utc (hwf (by simp [hty]))
        (show WType.endProg ≠ .nostart by decide) with h | h
      · exact .inl (by rw [h]; rfl)
      · exact .inr (by rw [h]; rfl)
    · right
      unfold initType
      rw [if_neg hstart, if_neg hstop, if_neg hstart, if_neg hstop]
      split_ifs <;> rfl

end XMLNode

/-- The units that the loader makes of a well formed `<init>`. -/
theorem readUnits_eq {e : LoadEnv} {k j : ℕ} {xs : List XMLNode}
    (hwf : ∀ x ∈ xs, x.initType.isSome → (stol (x.getAttribute (str "after") (str "0"))).isSome) :
    (readUnits e k j xs).2 = some .undefined ∨ readUnits e k j xs =
      ((xs.zipIdx j).filterMap fun y =>
        y.1.initType.map fun ty => (ty, y.1.loadTime e (e.utc k y.2) ty), none) := by
  induction xs generalizing j with
  | nil => exact .inr rfl
  | cons x xs ih =>
    obtain ⟨hx, hxs⟩ := List.forall_mem_cons.1 hwf
    rw [readUnits, List.zipIdx_cons, List.filterMap_cons]
    rcases XMLNode.readWorkUnit_eq e (e.utc k j) hx with h | h
    · exact .inl (by rw [h])
    · rw [h]
      rcases ih hxs (j := j + 1) with hrest | hrest
      · exact .inl hrest
      · right
        simp only [hrest]
        cases hty : x.initType with
        | none => rfl
        | some ty =>
          have hne : ty ≠ .notinit := by
            rintro rfl
            unfold XMLNode.initType at hty
            split_ifs at hty <;> simp at hty
          simp [hne]

/-- The units of a well formed element and those it asks for, one by one. -/
theorem readInit_eq {e : LoadEnv} {k : ℕ} {prog : XMLNode} (hwf : prog.WellFormedInit)
    {units : List (WType × ℤ)} (h : readInit e k prog = .ok units) :
    (prog.getNamedChild (str "init") = none ∧ units = [(.runProg, e.utc k 0)]) ∨
    ∃ init, prog.getNamedChild (str "init") = some init ∧
      units = init.children.zipIdx.filterMap fun y =>
        y.1.initType.map fun ty => (ty, y.1.loadTime e (e.utc k y.2) ty) := by
  unfold readInit at h
  cases hinit : prog.getNamedChild (str "init") with
  | none =>
    rw [hinit] at h
    cases h
    exact .inl ⟨rfl, rfl⟩
  | some init =>
    rw [hinit] at h
    rcases readUnits_eq (e := e) (k := k) (j := 0) (hwf init hinit) with hu | hu
    · dsimp only at h
      split at h
      · next hu' => simp [hu'] at hu
      · next hu' => simp [hu'] at hu
      · cases h
    · simp only [hu, Except.ok.injEq] at h
      exact .inr ⟨init, rfl, h.symm⟩

/-! ## When the schedule is what the file asks for -/

theorem forall₂_filterMap {α β γ : Type*} {R : β → γ → Prop} {f : α → Option β} {g : α → Option γ}
    {l : List α} (h : ∀ a ∈ l, (f a).isSome = (g a).isSome) :
    List.Forall₂ R (l.filterMap f) (l.filterMap g) ↔
      ∀ a ∈ l, ∀ b ∈ f a, ∀ c ∈ g a, R b c := by
  induction l with
  | nil => simp
  | cons a l ih =>
    obtain ⟨ha, hl⟩ := List.forall_mem_cons.1 h
    rw [List.forall_mem_cons, ← ih hl, List.filterMap_cons, List.filterMap_cons]
    cases hf : f a with
    | none =>
      have hg : g a = none := by simpa [hf] using ha
      simp [hg]
    | some b =>
      obtain ⟨c, hc⟩ : ∃ c, g a = some c := Option.isSome_iff_exists.1 (by simpa [hf] using ha.symm)
      simp [hc]

theorem forall₂_append {α β : Type*} {R : α → β → Prop} {l₁ l₂ : List α} {r₁ r₂ : List β}
    (h : l₁.length = r₁.length) :
    List.Forall₂ R (l₁ ++ l₂) (r₁ ++ r₂) ↔ List.Forall₂ R l₁ r₁ ∧ List.Forall₂ R l₂ r₂ := by
  induction l₁ generalizing r₁ with
  | nil =>
    obtain rfl : r₁ = [] := List.length_eq_zero_iff.1 h.symm
    simp
  | cons a l₁ ih =>
    cases r₁ with
    | nil => cases h
    | cons b r₁ => simp [ih (Nat.succ.inj h), and_assoc]

section Elements

variable {e : LoadEnv} {k : ℕ} {prog : XMLNode} {programs : List Program} {m : ProgPtr} {p : Program}

theorem XMLNode.loadTime_eq_iff {utc : ℤ} {x : XMLNode} {ty : WType} (hty : x.initType = some ty) :
    x.loadTime e utc ty = utc + x.after ↔
      (x.initType ≠ some .nostart → (x.getAttribute (str "at") (str "0")).length = 19 →
        (e.mktime (x.getAttribute (str "at") (str "0"))).getD utc = utc + x.after) ∧
      (x.initType = some .nostart → x.after = 0) := by
  rw [loadTime, hty]
  simp only [ne_eq, Option.some.injEq]
  split_ifs with h1 h2
  · simp only [h1, not_true_eq_false, false_imp_iff, true_imp_iff, true_and]
    omega
  · simp [h1, h2]
  · simp [h1, h2]

/-- The loader meets an action exactly when it heeds it. -/
theorem XMLNode.met_iff {utc : ℤ} {x : XMLNode} {ty : WType} (hty : x.initType = some ty)
    (hm : programs[m]? = some p) (hname : prog.attribute? (str "name") = some p.name) :
    UnitSpec.Met programs (⟨ty, utc + x.after, x.attribute? (str "name")⟩, m)
        (ty, x.loadTime e utc ty, some m) ↔ x.Heeded e utc prog := by
  have hnames : UnitSpec.Met programs (⟨ty, utc + x.after, x.attribute? (str "name")⟩, m)
      (ty, x.loadTime e utc ty, some m) ↔ x.loadTime e utc ty = utc + x.after ∧
        ∀ name, x.attribute? (str "name") = some name →
          prog.attribute? (str "name") = some name := by
    rw [hname]
    cases hx : x.attribute? (str "name") with
    | none => simp [UnitSpec.Met]
    | some name => simp [UnitSpec.Met, hm]
  rw [hnames, XMLNode.loadTime_eq_iff hty]
  constructor
  · rintro ⟨⟨hdate, hno⟩, hn⟩
    exact ⟨hn, hdate, hno⟩
  · rintro ⟨hn, hdate, hno⟩
    exact ⟨⟨hdate, hno⟩, hn⟩

theorem length_initSpecs (hwf : prog.WellFormedInit) {units : List (WType × ℤ)}
    (h : readInit e k prog = .ok units) : (initSpecs e k prog).length = units.length := by
  rcases readInit_eq hwf h with ⟨hinit, rfl⟩ | ⟨init, hinit, rfl⟩
  · rw [initSpecs, hinit]
    rfl
  · rw [initSpecs, hinit]
    dsimp only
    have hall : List.Forall₂ (fun _ _ => True)
        (init.children.zipIdx.filterMap fun y => y.1.unitSpec (e.utc k y.2))
        (init.children.zipIdx.filterMap fun y =>
          y.1.initType.map fun ty => (ty, y.1.loadTime e (e.utc k y.2) ty)) :=
      (forall₂_filterMap (by simp [XMLNode.unitSpec])).2 fun _ _ _ _ _ _ => trivial
    exact hall.length_eq

theorem met_init_iff (hwf : prog.WellFormedInit) {units : List (WType × ℤ)}
    (h : readInit e k prog = .ok units) (hm : programs[m]? = some p)
    (hname : prog.attribute? (str "name") = some p.name) :
    List.Forall₂ (UnitSpec.Met programs) ((initSpecs e k prog).map fun spec => (spec, m))
      (units.map fun u => (u.1, u.2, some m)) ↔ prog.HeededInit e k := by
  rw [List.forall₂_map_left_iff, List.forall₂_map_right_iff]
  rcases readInit_eq hwf h with ⟨hinit, rfl⟩ | ⟨init, hinit, rfl⟩
  · rw [initSpecs, hinit]
    simp [UnitSpec.Met, XMLNode.HeededInit, hinit]
  · rw [initSpecs, hinit]
    dsimp only
    rw [forall₂_filterMap (by simp [XMLNode.unitSpec])]
    constructor
    · intro hall init' hinit' y hy hsome
      cases hinit.symm.trans hinit'
      obtain ⟨ty, hty⟩ := Option.isSome_iff_exists.1 hsome
      have hmet := hall y hy ⟨ty, e.utc k y.2 + y.1.after, y.1.attribute? (str "name")⟩
        (by rw [XMLNode.unitSpec, hty]; rfl) (ty, y.1.loadTime e (e.utc k y.2) ty)
        (by rw [hty]; rfl)
      exact (XMLNode.met_iff hty hm hname).1 hmet
    · intro hall y hy spec hspec u hu
      obtain ⟨ty, hty, rfl⟩ := Option.map_eq_some_iff.1 hu
      rw [XMLNode.unitSpec, hty] at hspec
      cases hspec
      exact (XMLNode.met_iff hty hm hname).2 (hall init hinit y hy (by rw [hty]; rfl))

/-- The units that a scheduler is given for some elements are those asked for exactly when each
element is heeded. -/
theorem Adds.met_iff {ys : List (XMLNode × ℕ)} {s s' : NamedConfig} (h : Adds e ys s s')
    (hwf : ∀ y ∈ ys, y.1.WellFormedInit) : ∃ units, s'.init = s.init ++ units ∧
      (List.Forall₂ (UnitSpec.Met s'.programs) (specsFrom e s.programs.length ys)
        (units.map fun u => (u.1, u.2.1, some u.2.2)) ↔ ∀ y ∈ ys, y.1.HeededInit e y.2) := by
  induction h with
  | nil => exact ⟨[], by simp, by simp [specsFrom]⟩
  | @cons x k ys s s' prog units hprog hunits h ih =>
    obtain ⟨hx, hys⟩ := List.forall_mem_cons.1 hwf
    obtain ⟨rest, hinit, hiff⟩ := ih hys
    obtain ⟨progs, hprogs, -⟩ := h.programs
    have hm : s'.programs[s.programs.length]? = some prog := by
      rw [hprogs]
      simp [NamedConfig.add]
    have hlen : (s.add prog units).programs.length = s.programs.length + 1 := by
      simp [NamedConfig.add]
    rw [hlen] at hiff
    refine ⟨units.map (fun u => (u.1, u.2, s.programs.length)) ++ rest, ?_, ?_⟩
    · rw [hinit]
      simp [NamedConfig.add]
    · rw [specsFrom, List.map_append, forall₂_append, hiff, List.forall_mem_cons, List.map_map]
      · exact and_congr (met_init_iff hx hunits hm (readProgram_cases hprog).1) Iff.rfl
      · simp [length_initSpecs hx hunits]

end Elements

/-- After a file with well formed `<init>` elements is loaded, the schedule of each scheduler is the
list of the units it asks for, in order, exactly when each action names no other program and has its
time from `after`. -/
theorem schedules_iff {e : LoadEnv} {config : XMLNode} {cfg cfg' : Config}
    {scheds : List NamedConfig} (h : readConfig e config cfg = .ok (scheds, cfg'))
    (hwf : ∀ x ∈ programElements config, x.WellFormedInit) :
    (∀ i s, scheds[i]? = some s → List.Forall₂ (UnitSpec.Met s.programs)
      (specsFrom e 0 (elementsFor scheds i 0 (programElements config)))
      (((Process.loaded scheds).thread i).s.schedule.units.map WorkUnit.task)) ↔
    ∀ y ∈ (programElements config).zipIdx, y.1.HeededInit e y.2 := by
  obtain ⟨hadds, hknown⟩ := readConfig_cases h
  have hiff : ∀ i s, scheds[i]? = some s → (List.Forall₂ (UnitSpec.Met s.programs)
      (specsFrom e 0 (elementsFor scheds i 0 (programElements config)))
      (((Process.loaded scheds).thread i).s.schedule.units.map WorkUnit.task) ↔
      ∀ y ∈ elementsFor scheds i 0 (programElements config), y.1.HeededInit e y.2) := by
    intro i s hs
    obtain ⟨s₀, hempty, hadd⟩ := hadds i s hs
    obtain ⟨units, hinit, hmet⟩ := hadd.met_iff fun y hy =>
      hwf y.1 (List.fst_mem_of_mem_zipIdx (mem_elementsFor.1 hy).1)
    have hprograms : s₀.programs = [] := congrArg SchedulerConfig.programs hempty
    have hinit₀ : s₀.init = [] := congrArg SchedulerConfig.init hempty
    have hconfig : (scheds.map NamedConfig.toSchedulerConfig).getD i {} = s.toSchedulerConfig := by
      simp [hs]
    have hsched : ((Process.loaded scheds).thread i).s.schedule = Schedule.ofInit s.init := by
      show Schedule.ofInit ((scheds.map NamedConfig.toSchedulerConfig).getD i {}).init = _
      rw [hconfig]
    rw [hsched, Schedule.ofInit_tasks, hinit, hinit₀, List.nil_append]
    rw [hprograms] at hmet
    exact hmet
  constructor
  · intro hall y hy
    obtain ⟨i, hlt, hi⟩ := hknown y.1 (List.fst_mem_of_mem_zipIdx hy)
    obtain ⟨s, hs⟩ : ∃ s, scheds[i]? = some s := ⟨scheds[i], List.getElem?_eq_getElem hlt⟩
    exact (hiff i s hs).1 (hall i s hs) y (mem_elementsFor.2 ⟨hy, hi⟩)
  · intro hall i s hs
    exact (hiff i s hs).2 fun y hy => hall y (mem_elementsFor.1 hy).1

/-- The program `P1` with one start action. -/
def startP1 (attributes : List (Str × Str)) : XMLNode :=
  elementOf (str "P1")
    [{ name := str "init", children := [{ name := str "start", attributes }] }]

theorem wellFormedInit_startP1 {attributes : List (Str × Str)}
    (h : (stol (XMLNode.getAttribute { name := str "start", attributes } (str "after")
      (str "0"))).isSome) : (startP1 attributes).WellFormedInit := by
  intro init hinit x hx _
  cases hinit
  obtain rfl := List.mem_singleton.1 hx
  exact h

/-- Two schedulers.  `backup` is started and stopped again at night, `db` waits to be started by
hand, and `web` has no `<init>`. -/
def nightConfig : XMLNode where
  name := str "config"
  children := [
    { name := str "general"
      children := [
        { name := str "schedulers"
          children := [{ name := str "scheduler", attributes := [(str "name", str "night")] }] },
        { name := str "socket" }] },
    { name := str "programs"
      children := [
        elementOf (str "web") [],
        elementOf (str "backup") [
          { name := str "scheduler", contents := str "night" },
          { name := str "init"
            children := [
              { name := str "start", attributes := [(str "after", str "60")] },
              { name := str "stop"
                attributes := [(str "name", str "backup"), (str "after", str "120")] }] }],
        elementOf (str "db") [{ name := str "init", children := [{ name := str "nostart" }] }]] }]

theorem nightConfig_inits {x init : XMLNode} (hx : x ∈ programElements nightConfig)
    (hinit : x.getNamedChild (str "init") = some init) : ∀ a ∈ init.children,
      (stol (a.getAttribute (str "after") (str "0"))).isSome ∧
      (a.attribute? (str "name") = none ∨ a.attribute? (str "name") = x.attribute? (str "name")) ∧
      (a.getAttribute (str "at") (str "0")).length ≠ 19 ∧
      (a.initType = some .nostart → a.after = 0) := by
  have hall : ∀ x ∈ programElements nightConfig, ∀ init ∈ (x.getNamedChild (str "init")).toList,
      ∀ a ∈ init.children, (stol (a.getAttribute (str "after") (str "0"))).isSome ∧
      (a.attribute? (str "name") = none ∨ a.attribute? (str "name") = x.attribute? (str "name")) ∧
      (a.getAttribute (str "at") (str "0")).length ≠ 19 ∧
      (a.initType = some .nostart → a.after = 0) := by decide
  exact hall x hx init (Option.mem_toList.2 hinit)

theorem nightConfig_heeded : ∀ y ∈ (programElements nightConfig).zipIdx, y.1.HeededInit {} y.2 := by
  intro y hy init hinit z hz _
  obtain ⟨-, hname, hat, hno⟩ := nightConfig_inits (List.fst_mem_of_mem_zipIdx hy) hinit z.1
    (List.fst_mem_of_mem_zipIdx hz)
  refine ⟨fun name h => ?_, fun _ hlen => absurd hlen hat, hno⟩
  rcases hname with hnone | hsame
  · rw [hnone] at h
    cases h
  · rwa [← hsame]

/-- Both schedules are those that the file asks for. -/
theorem schedules_iff_night : ∃ scheds cfg',
    readConfig {} nightConfig {} = .ok (scheds, cfg') ∧
    ((List.range 2).map fun i => ((Process.loaded scheds).thread i).s.schedule.units.map
      WorkUnit.task) = [[(.runProg, 0, some 0), (.nostart, 0, some 1)],
        [(.runProg, 60, some 0), (.endProg, 120, some 0)]] ∧
    ∀ i s, scheds[i]? = some s → List.Forall₂ (UnitSpec.Met s.programs)
      (specsFrom {} 0 (elementsFor scheds i 0 (programElements nightConfig)))
      (((Process.loaded scheds).thread i).s.schedule.units.map WorkUnit.task) := by
  obtain ⟨r, hr, hunits⟩ : ∃ r, readConfig {} nightConfig {} = .ok r ∧
      ((List.range 2).map fun i => ((Process.loaded r.1).thread i).s.schedule.units.map
        WorkUnit.task) = [[(.runProg, 0, some 0), (.nostart, 0, some 1)],
          [(.runProg, 60, some 0), (.endProg, 120, some 0)]] := ⟨_, rfl, by decide⟩
  refine ⟨r.1, r.2, hr, hunits, (schedules_iff hr ?_).2 nightConfig_heeded⟩
  exact fun x hx init hinit a ha _ => (nightConfig_inits hx hinit a ha).1

/-- `P1` is started in the place of `P2`. -/
theorem schedules_fail : ¬∀ (e : LoadEnv) (config : XMLNode) (cfg cfg' : Config)
    (scheds : List NamedConfig), readConfig e config cfg = .ok (scheds, cfg') →
    (∀ x ∈ programElements config, x.WellFormedInit) → ∀ i s, scheds[i]? = some s →
    List.Forall₂ (UnitSpec.Met s.programs)
      (specsFrom e 0 (elementsFor scheds i 0 (programElements config)))
      (((Process.loaded scheds).thread i).s.schedule.units.map WorkUnit.task) := by
  intro h
  have hwf : ∀ x ∈ [startP1 [(str "name", str "P2")],
      elementOf (str "P2") [{ name := str "init" }]], x.WellFormedInit := by
    refine List.forall_mem_cons.2 ⟨wellFormedInit_startP1 (by decide), ?_⟩
    intro x hx init hinit y hy
    obtain rfl := List.mem_singleton.1 hx
    cases hinit
    simp at hy
  obtain ⟨scheds, cfg', hok, s, hs, hname, hspecs, htasks⟩ : ∃ scheds cfg',
      readConfig {} (configOf [startP1 [(str "name", str "P2")],
        elementOf (str "P2") [{ name := str "init" }]]) {} = .ok (scheds, cfg') ∧
      ∃ s, scheds[0]? = some s ∧ (s.programs[0]?).map Program.name = some (str "P1") ∧
      specsFrom {} 0 (elementsFor scheds 0 0 [startP1 [(str "name", str "P2")],
        elementOf (str "P2") [{ name := str "init" }]]) =
          [(⟨.runProg, 0, some (str "P2")⟩, 0)] ∧
      ((Process.loaded scheds).thread 0).s.schedule.units.map WorkUnit.task =
        [(.runProg, 0, some 0)] :=
    ⟨_, _, rfl, _, rfl, by decide, rfl, rfl⟩
  have hall := h {} _ {} cfg' scheds hok hwf 0 s hs
  rw [htasks] at hall
  obtain ⟨⟨-, -, hmet⟩, -⟩ := List.forall₂_cons.1 (hspecs ▸ hall)
  exact absurd (hname.symm.trans hmet) (by decide)

end Peter
