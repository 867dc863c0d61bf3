import Peter.ExitTable
import Peter.Startup

/-!
# Sections that are given up

The units of `<init>` go to the scheduler and the lists of `<actions>` into the tables while the
section is read.  An exception ends the reading and adds the default to what is there already, so
that a section with a value that is no number is replaced as a whole only if nothing but the entries
for 0 was stored before (`sections_replaced_iff`).
-/

namespace Peter

/-! ## Values that are no numbers -/

/-- The conversion takes the whole text. -/
def IsNumber (conversion : Str → Option ℤ) (s : Str) : Prop :=
  (conversion s).isSome ∧ ∀ c ∈ s.dropWhile (fun c => ¬IsDigit c), IsDigit c

example : IsNumber stol (str " -12") ∧ ¬IsNumber stol (str "5x") ∧ ¬IsNumber stol (str "x") := by
  unfold IsNumber
  decide

namespace XMLNode

/-- The numbers in the value lists of an exit element, the bounds of its ranges among them. -/
def values (x : XMLNode) : List Str :=
  ([str "signal", str "result"].filterMap x.attribute?).flatMap fun s =>
    (tokenize s [] (UInt8.ofNat 44)).flatMap fun tmp =>
      if (find tmp (str "-") 0).isSome then tokenize tmp [] (UInt8.ofNat 45) else [tmp]

/-- The element has an `after` that is no number. -/
def BadAfter (x : XMLNode) : Prop := ∃ s, x.attribute? (str "after") = some s ∧ ¬IsNumber stol s

/-- Some value in an `<init>` is no number. -/
def BadInit (init : XMLNode) : Prop := ∃ c ∈ init.children, c.BadAfter

/-- Some value in an `<actions>` is no number. -/
def BadActions (actions : XMLNode) : Prop :=
  ∃ x ∈ actions.children, (∃ c ∈ x.children, c.BadAfter) ∨ ∃ s ∈ x.values, ¬IsNumber stoi s

/-- The element without the children of this name. -/
def without (x : XMLNode) (name : Str) : XMLNode :=
  { x with children := x.children.filter fun c => c.name ≠ name }

theorem getNamedChild_without (x : XMLNode) (name : Str) :
    (x.without name).getNamedChild name = none := by
  rw [getNamedChild, List.find?_eq_none]
  intro c hc
  simpa using (List.mem_filter.1 hc).2

/-! ## Programs that load -/

/-- What is read beside the two sections is as it should be. -/
structure LoadsOutside (x : XMLNode) (scheds : List NamedConfig) : Prop where
  scheduler : ∃ s ∈ scheds, s.name = schedulerName x
  name : (x.attribute? (str "name")).isSome
  signal : (stoi (x.findContents (str "signal") (str "15"))).isSome
  limits : ∃ limits, readLimits (x.getNamedChild (str "limit")) = .ok limits

end XMLNode

/-- The clock stands still. -/
def LoadEnv.stopped (e : LoadEnv) (t : ℤ) : LoadEnv := { e with utc := fun _ _ => t }

namespace XMLNode

/-- A program with a bad value in `<init>` is refused, or its schedule is the one without an
`<init>`, for some reading of the clock while it is loaded. -/
def InitReplaced (e : LoadEnv) (k : ℕ) (x : XMLNode) (scheds : List NamedConfig) : Prop :=
  ∀ init, x.getNamedChild (str "init") = some init → init.BadInit →
    readElement e k x scheds = .error .thrown ∨ ∃ units, readInit e k x = .ok units ∧
      ∃ j ≤ init.children.length,
        readInit (e.stopped (e.utc k j)) k (x.without (str "init")) = .ok units

/-- A program with a bad value in `<actions>` is refused, or its tables are those without an
`<actions>`. -/
def ActionsReplaced (e : LoadEnv) (k : ℕ) (x : XMLNode) (scheds : List NamedConfig) : Prop :=
  ∀ actions, x.getNamedChild (str "actions") = some actions → actions.BadActions →
    readElement e k x scheds = .error .thrown ∨ ∃ tables, readActions x {} = .ok tables ∧
      readActions (x.without (str "actions")) {} = .ok tables

end XMLNode

theorem readActions_ne_thrown (x : XMLNode) (t : Tables) : readActions x t ≠ .error .thrown := by
  unfold readActions
  dsimp only
  split <;> simp

theorem readInit_ne_thrown (e : LoadEnv) (k : ℕ) (x : XMLNode) :
    readInit e k x ≠ .error .thrown := by
  unfold readInit
  split
  · simp
  · split <;> simp

theorem orThrow_bind_eq_thrown_iff {α β : Type} {o : Option α} {f : α → Except ReadFault β} :
    orThrow o >>= f = .error .thrown ↔ ∀ a, o = some a → f a = .error .thrown := by
  cases o with
  | none => simp [orThrow, bind, Except.bind]
  | some a => simp [orThrow, bind, Except.bind]

/-- A number that the `limit` element needs is there, or an exception is thrown. -/
theorem readLimits_eq (o : Option XMLNode) :
    readLimits o = .error .thrown ∨ ∃ limits, readLimits o = .ok limits := by
  cases o with
  | none => exact .inr ⟨_, rfl⟩
  | some x =>
    unfold readLimits
    dsimp only
    cases stoi (x.getAttribute (str "restarts") (str "-1")) with
    | none => exact .inl rfl
    | some _ =>
      cases stoi (x.getAttribute (str "minruntime") (str "-1")) with
      | none => exact .inl rfl
      | some _ =>
        cases stoi (x.getAttribute (str "maxruntime") (str "-1")) with
        | none => exact .inl rfl
        | some _ => exact .inr ⟨_, rfl⟩

theorem readProgram_eq_thrown_iff (x : XMLNode) : readProgram x = .error .thrown ↔
    ∀ name, x.attribute? (str "name") = some name →
      ∀ signal, stoi (x.findContents (str "signal") (str "15")) = some signal →
        readLimits (x.getNamedChild (str "limit")) = .error .thrown := by
  unfold readProgram
  rw [orThrow_bind_eq_thrown_iff]
  refine forall₂_congr fun name _ => ?_
  rw [orThrow_bind_eq_thrown_iff]
  refine forall₂_congr fun signal _ => ?_
  rcases readLimits_eq (x.getNamedChild (str "limit")) with hlimits | ⟨limits, hlimits⟩
  · rw [hlimits]
    exact iff_of_true rfl rfl
  · have hactions := readActions_ne_thrown x {}
    rw [hlimits]
    refine iff_of_false (fun h => ?_) (by simp)
    cases ht : readActions x {} with
    | error f =>
      cases (show f = .thrown by simpa [ht, bind, Except.bind] using h)
      exact hactions ht
    | ok tables => simp [ht, bind, Except.bind, pure, Except.pure] at h

theorem readProgram_ne_thrown_iff {x : XMLNode} : readProgram x ≠ .error .thrown ↔
    (x.attribute? (str "name")).isSome ∧
      (stoi (x.findContents (str "signal") (str "15"))).isSome ∧
      ∃ limits, readLimits (x.getNamedChild (str "limit")) = .ok limits := by
  rw [ne_eq, readProgram_eq_thrown_iff]
  simp only [Option.isSome_iff_exists]
  constructor
  · intro h
    push Not at h
    obtain ⟨name, hname, signal, hsignal, hlimits⟩ := h
    exact ⟨⟨name, hname⟩, ⟨signal, hsignal⟩, (readLimits_eq _).resolve_left hlimits⟩
  · rintro ⟨⟨name, hname⟩, ⟨signal, hsignal⟩, limits, hlimits⟩ h
    rw [h name hname signal hsignal] at hlimits
    cases hlimits

/-- Only what is beside the sections makes the loader refuse a program. -/
theorem readElement_eq_thrown_iff (e : LoadEnv) (k : ℕ) (x : XMLNode) (scheds : List NamedConfig) :
    readElement e k x scheds = .error .thrown ↔ ¬x.LoadsOutside scheds := by
  unfold readElement
  cases hi : scheds.findIdx? fun s => s.name = schedulerName x with
  | none =>
    refine iff_of_true rfl fun h => ?_
    obtain ⟨s, hs, hname⟩ := h.scheduler
    simpa [hname] using List.findIdx?_eq_none_iff.1 hi s hs
  | some i =>
    have hscheduler : ∃ s ∈ scheds, s.name = schedulerName x := by
      obtain ⟨hlt, hname, -⟩ := List.findIdx?_eq_some_iff_getElem.1 hi
      exact ⟨scheds[i], List.getElem_mem hlt, by simpa using hname⟩
    have hloads : x.LoadsOutside scheds ↔ readProgram x ≠ .error .thrown := by
      rw [readProgram_ne_thrown_iff]
      exact ⟨fun h => ⟨h.name, h.signal, h.limits⟩, fun h => ⟨hscheduler, h.1, h.2.1, h.2.2⟩⟩
    rw [hloads, not_not]
    dsimp only
    cases readProgram x with
    | error f =>
      constructor
      · intro h
        cases h
        rfl
      · intro h
        cases h
        rfl
    | ok prog =>
      refine iff_of_false (fun h => ?_) (by simp)
      have hinit := readInit_ne_thrown e k x
      cases hunits : readInit e k x with
      | error f =>
        rw [hunits] at h
        cases h
        exact hinit hunits
      | ok units =>
        rw [hunits] at h
        cases h

/-! ## Units before the fault -/

namespace XMLNode

/-- The children of an `<init>` that ask for a unit, each with its place. -/
def askedUnits (init : XMLNode) : List (XMLNode × ℕ) :=
  init.children.zipIdx.filter fun y => y.1.initType.isSome

/-- A start or stop whose `after` is looked at, which `stol` does not take. -/
def RefusedAfter (x : XMLNode) : Prop :=
  (x.name = str "start" ∨ x.name = str "stop") ∧
    (x.getAttribute (str "at") (str "0")).length ≠ 19 ∧
    stol (x.getAttribute (str "after") (str "0")) = none

/-- The first child of the `<init>` that asks for a unit is one that throws, or it is the only one
and asks for what the default asks for. -/
def FirstUnitRefused (e : LoadEnv) (k : ℕ) (init : XMLNode) : Prop :=
  ∃ y ys, init.askedUnits = y :: ys ∧ (y.1.RefusedAfter ∨
    ys = [] ∧ y.1.name = str "start" ∧
      ∃ j ≤ init.children.length, unitTime e (e.utc k y.2) y.1 = .ok (e.utc k j))

end XMLNode

/-- What `readUnits` makes of the children that ask for a unit. -/
def readAsked (e : LoadEnv) (k : ℕ) : List (XMLNode × ℕ) → List (WType × ℤ) × Option ReadFault
  | [] => ([], none)
  | y :: ys => match readWorkUnit e (e.utc k y.2) y.1 with
    | .error f => ([], some f)
    | .ok u => (u :: (readAsked e k ys).1, (readAsked e k ys).2)

/-- What comes of the units before a fault: an exception adds the default. -/
def withDefault (d : WType × ℤ) :
    List (WType × ℤ) × Option ReadFault → Except ReadFault (List (WType × ℤ))
  | (us, none) => .ok us
  | (us, some .thrown) => .ok (us ++ [d])
  | (_, some .undefined) => .error .undefined

section Units

variable {e : LoadEnv} {k : ℕ}

theorem readAsked_cons_of_error {y : XMLNode × ℕ} {f : ReadFault}
    (h : readWorkUnit e (e.utc k y.2) y.1 = .error f) (ys : List (XMLNode × ℕ)) :
    readAsked e k (y :: ys) = ([], some f) := by
  rw [readAsked, h]

theorem readAsked_cons_of_ok {y : XMLNode × ℕ} {u : WType × ℤ}
    (h : readWorkUnit e (e.utc k y.2) y.1 = .ok u) (ys : List (XMLNode × ℕ)) :
    readAsked e k (y :: ys) = (u :: (readAsked e k ys).1, (readAsked e k ys).2) := by
  rw [readAsked, h]

theorem XMLNode.initType_ne_notinit (x : XMLNode) : x.initType ≠ some .notinit := by
  unfold initType
  split_ifs <;> decide

/-- A unit has the type its element asks for. -/
theorem readWorkUnit_initType {utc : ℤ} {x : XMLNode} {u : WType × ℤ}
    (h : readWorkUnit e utc x = .ok u) : u.1 = x.initType.getD .notinit := by
  unfold readWorkUnit at h
  unfold XMLNode.initType
  split_ifs at h ⊢
  · cases ht : unitTime e utc x <;> rw [ht] at h <;> cases h
    rfl
  · cases ht : unitTime e utc x <;> rw [ht] at h <;> cases h
    rfl
  · cases h
    rfl
  · cases h
    rfl

theorem readWorkUnit_of_initType {x : XMLNode} (h : x.initType = none) (utc : ℤ) :
    readWorkUnit e utc x = .ok (.notinit, 0) := by
  unfold XMLNode.initType at h
  unfold readWorkUnit
  split_ifs at h ⊢
  rfl

/-- Only the children that ask for a unit matter. -/
theorem readUnits_eq_readAsked (j : ℕ) (xs : List XMLNode) : readUnits e k j xs =
    readAsked e k ((xs.zipIdx j).filter fun y => y.1.initType.isSome) := by
  induction xs generalizing j with
  | nil => rfl
  | cons x xs ih =>
    rw [readUnits, List.zipIdx_cons]
    cases hty : x.initType with
    | none =>
      rw [List.filter_cons_of_neg (by simp [hty]), readWorkUnit_of_initType hty, ← ih]
      rfl
    | some ty =>
      rw [List.filter_cons_of_pos (by simp [hty])]
      cases hx : readWorkUnit e (e.utc k j) x with
      | error f => rw [readAsked_cons_of_error hx]
      | ok u =>
        have hu : u.1 ≠ .notinit := by
          rw [readWorkUnit_initType hx, hty]
          exact fun hno => x.initType_ne_notinit (hty.trans (congrArg some hno))
        rw [readAsked_cons_of_ok hx, ← ih]
        dsimp only
        rw [if_neg hu]

theorem unitTime_eq_thrown_iff {utc : ℤ} {x : XMLNode} : unitTime e utc x = .error .thrown ↔
    (x.getAttribute (str "at") (str "0")).length ≠ 19 ∧
      stol (x.getAttribute (str "after") (str "0")) = none := by
  unfold unitTime
  dsimp only
  split_ifs with hdate
  · simp [hdate]
  · cases stol (x.getAttribute (str "after") (str "0")) with
    | none => simp [hdate]
    | some after =>
      dsimp only
      split_ifs <;> simp

/-- A child throws exactly if its `after` is refused. -/
theorem readWorkUnit_eq_thrown_iff {utc : ℤ} {x : XMLNode} :
    readWorkUnit e utc x = .error .thrown ↔ x.RefusedAfter := by
  have hmap : ∀ ty : WType, (unitTime e utc x).map (fun t => (ty, t)) = .error .thrown ↔
      unitTime e utc x = .error .thrown := by
    intro ty
    cases unitTime e utc x <;> simp [Except.map]
  unfold readWorkUnit XMLNode.RefusedAfter
  split_ifs with hstart hstop
  · rw [hmap, unitTime_eq_thrown_iff]
    simp [hstart]
  · rw [hmap, unitTime_eq_thrown_iff]
    simp [hstop]
  · simp [hstart, hstop]
  · simp [hstart, hstop]

theorem readWorkUnit_eq_runProg_iff {utc t : ℤ} {x : XMLNode} :
    readWorkUnit e utc x = .ok (.runProg, t) ↔ x.name = str "start" ∧ unitTime e utc x = .ok t := by
  unfold readWorkUnit
  split_ifs with hstart hstop
  · cases unitTime e utc x <;> simp [Except.map, hstart]
  · cases unitTime e utc x <;> simp [Except.map, hstart]
  · simp [hstart]
  · simp [hstart]

variable {x init : XMLNode}

theorem readInit_eq_withDefault (h : x.getNamedChild (str "init") = some init) :
    readInit e k x = withDefault (.runProg, e.utc k init.children.length)
      (readAsked e k init.askedUnits) := by
  rw [readInit, h, XMLNode.askedUnits, ← readUnits_eq_readAsked]
  dsimp only
  rcases readUnits e k 0 init.children with ⟨us, _ | _ | _⟩ <;> rfl

/-- After one unit and a further child that asks for one there are two units or none. -/
theorem withDefault_ne_singleton {u d w : WType × ℤ} {z : XMLNode × ℕ} {zs : List (XMLNode × ℕ)} :
    withDefault d (u :: (readAsked e k (z :: zs)).1, (readAsked e k (z :: zs)).2) ≠ .ok [w] := by
  cases hz : readWorkUnit e (e.utc k z.2) z.1 with
  | error f =>
    rw [readAsked_cons_of_error hz]
    cases f <;> simp [withDefault]
  | ok v =>
    rw [readAsked_cons_of_ok hz]
    rcases readAsked e k zs with ⟨us, _ | _ | _⟩ <;> simp [withDefault]

/-- The schedule is that of a program without an `<init>` exactly when the first unit is refused. -/
theorem readInit_eq_default_iff (h : x.getNamedChild (str "init") = some init) :
    (∃ j ≤ init.children.length, readInit e k x = .ok [(.runProg, e.utc k j)]) ↔
      init.FirstUnitRefused e k := by
  rw [readInit_eq_withDefault h, XMLNode.FirstUnitRefused]
  rcases init.askedUnits with _ | ⟨y, ys⟩
  · simp [readAsked, withDefault]
  simp only [List.cons.injEq]
  constructor
  · rintro ⟨j, hj, hunits⟩
    refine ⟨y, ys, ⟨rfl, rfl⟩, ?_⟩
    cases hy : readWorkUnit e (e.utc k y.2) y.1 with
    | error f =>
      cases f with
      | thrown => exact .inl (readWorkUnit_eq_thrown_iff.1 hy)
      | undefined =>
        rw [readAsked_cons_of_error hy] at hunits
        cases hunits
    | ok u =>
      rw [readAsked_cons_of_ok hy] at hunits
      rcases ys with _ | ⟨z, zs⟩
      · cases hunits
        obtain ⟨hname, htime⟩ := readWorkUnit_eq_runProg_iff.1 hy
        exact .inr ⟨rfl, hname, j, hj, htime⟩
      · exact absurd hunits withDefault_ne_singleton
  · rintro ⟨y', ys', ⟨rfl, rfl⟩, hrefused | ⟨rfl, hname, j, hj, htime⟩⟩
    · refine ⟨_, le_rfl, ?_⟩
      rw [readAsked_cons_of_error (readWorkUnit_eq_thrown_iff.2 hrefused)]
      rfl
    · refine ⟨j, hj, ?_⟩
      rw [readAsked_cons_of_ok (readWorkUnit_eq_runProg_iff.2 ⟨hname, htime⟩)]
      rfl

end Units

/-! ## Tables of the default -/

theorem lastWith_eq_none_iff {α : Type*} {P : α → Prop} {xs : List α} :
    lastWith P xs = none ↔ ∀ x ∈ xs, ¬P x := by
  simp [lastWith]

namespace Latest

variable {covers : ℤ → XMLNode → Prop} {xs : List XMLNode} {t : Table}

theorem eq_none_iff (h : Latest covers xs (fun _ => none) t) (n : ℤ) :
    t n = none ↔ ∀ x ∈ xs, ¬covers n x := by
  rw [h n, ← lastWith_eq_none_iff]
  cases lastWith (covers n) xs <;> simp

theorem eq_some_iff (h : Latest covers xs (fun _ => none) t) (n : ℤ) (al : ActionList) :
    t n = some (some al) ↔ (lastWith (covers n) xs).map actionsOf = some al := by
  rw [h n]
  cases lastWith (covers n) xs <;> simp

end Latest

theorem Table.eq_set_iff {t t' : Table} {n : ℤ} {al : ActionList} :
    t = t'.set n al ↔ t n = some (some al) ∧ ∀ m ≠ n, t m = t' m := by
  rw [Table.set, Function.eq_update_iff]

theorem Table.set_eq_set_iff {t t' : Table} {n : ℤ} {al : ActionList} :
    t.set n al = t'.set n al ↔ ∀ m ≠ n, t m = t' m := by
  rw [Table.eq_set_iff, Table.set, Function.update_self]
  refine (and_iff_right rfl).trans (forall₂_congr fun m hm => ?_)
  rw [Function.update_of_ne hm]

/-- The tables without an `actions` element. -/
def Tables.default : Tables :=
  { exit := Table.set (fun _ => none) 0 defaultActions
    sgnl := Table.set (fun _ => none) 0 defaultActions }

/-- Before the first fault nothing is stored but for 0, and there is an exception, or both entries
for 0 are those of the default. -/
structure XMLNode.OnlyZeroStored (actions : XMLNode) : Prop where
  zero : ∀ x ∈ Faults.upToFault XMLNode.exitFault actions.children, ∀ n, x.Stores n → n = 0
  fault : actions.children.findSome? XMLNode.exitFault = some .thrown ∨
    actions.children.findSome? XMLNode.exitFault = none ∧
    (lastWith (StoresSignal 0) actions.children).map actionsOf = some defaultActions ∧
    (lastWith (StoresResult 0) actions.children).map actionsOf = some defaultActions

theorem readActions_without (x : XMLNode) :
    readActions (x.without (str "actions")) {} = .ok Tables.default := by
  rw [readActions, XMLNode.getNamedChild_without]
  rfl

/-- An exit element stores in one of the tables. -/
theorem XMLNode.stores_iff {x : XMLNode} {n : ℤ} :
    x.Stores n ↔ StoresSignal n x ∨ StoresResult n x := by
  unfold StoresSignal StoresResult
  cases x.attribute? (str "signal") <;> simp

/-- The tables are those of a program without `<actions>` exactly when nothing but 0 is stored. -/
theorem readActions_eq_default_iff {x actions : XMLNode}
    (h : x.getNamedChild (str "actions") = some actions) :
    readActions x {} = .ok Tables.default ↔ actions.OnlyZeroStored := by
  obtain ⟨t, hread, hsgnl, hexit⟩ := exists_readExits_eq actions.children {}
  have hzero : (∀ x ∈ Faults.upToFault XMLNode.exitFault actions.children,
      ∀ n, x.Stores n → n = 0) ↔ (∀ n ≠ 0, t.exit n = none) ∧ ∀ n ≠ 0, t.sgnl n = none := by
    simp only [XMLNode.stores_iff, hexit.eq_none_iff, hsgnl.eq_none_iff]
    grind
  rw [readActions, h]
  dsimp only
  rw [hread]
  cases hfault : actions.children.findSome? XMLNode.exitFault with
  | none =>
    have hsgnl0 := hsgnl.eq_some_iff 0 defaultActions
    have hexit0 := hexit.eq_some_iff 0 defaultActions
    rw [Faults.upToFault_eq_self hfault] at hsgnl0 hexit0
    have heq : t = Tables.default ↔
        (t.exit 0 = some (some defaultActions) ∧ ∀ n ≠ 0, t.exit n = none) ∧
          t.sgnl 0 = some (some defaultActions) ∧ ∀ n ≠ 0, t.sgnl n = none := by
      rw [← Table.eq_set_iff, ← Table.eq_set_iff]
      cases t
      simp [Tables.default]
    dsimp only
    rw [Except.ok.injEq, heq, hsgnl0, hexit0]
    constructor
    · rintro ⟨⟨hresult, hexits⟩, hsignal, hsgnls⟩
      exact ⟨hzero.2 ⟨hexits, hsgnls⟩, .inr ⟨hfault, hsignal, hresult⟩⟩
    · rintro ⟨hall, hthrown | ⟨-, hsignal, hresult⟩⟩
      · rw [hfault] at hthrown
        cases hthrown
      · exact ⟨⟨hresult, (hzero.1 hall).1⟩, hsignal, (hzero.1 hall).2⟩
  | some f =>
    cases f with
    | thrown =>
      dsimp only
      rw [Except.ok.injEq, Tables.default, Tables.mk.injEq, Table.set_eq_set_iff,
        Table.set_eq_set_iff, ← hzero]
      exact ⟨fun hall => ⟨hall, .inl hfault⟩, fun hall => hall.zero⟩
    | undefined =>
      refine iff_of_false (by simp) fun hall => ?_
      rcases hall.fault with hthrown | ⟨hnone, -⟩
      · rw [hfault] at hthrown
        cases hthrown
      · rw [hfault] at hnone
        cases hnone

/-! ## The sections of a program -/

theorem readInit_without (e : LoadEnv) (k : ℕ) (x : XMLNode) :
    readInit e k (x.without (str "init")) = .ok [(.runProg, e.utc k 0)] := by
  rw [readInit, XMLNode.getNamedChild_without]

theorem XMLNode.initReplaced_iff (e : LoadEnv) (k : ℕ) (x : XMLNode) (scheds : List NamedConfig) :
    x.InitReplaced e k scheds ↔ (x.LoadsOutside scheds → ∀ init,
      x.getNamedChild (str "init") = some init → init.BadInit → init.FirstUnitRefused e k) := by
  have hunits : ∀ init, x.getNamedChild (str "init") = some init →
      ((∃ units, readInit e k x = .ok units ∧ ∃ j ≤ init.children.length,
        readInit (e.stopped (e.utc k j)) k (x.without (str "init")) = .ok units) ↔
        init.FirstUnitRefused e k) := by
    intro init hinit
    rw [← readInit_eq_default_iff hinit]
    simp only [readInit_without]
    constructor
    · rintro ⟨units, hunits, j, hj, hdefault⟩
      exact ⟨j, hj, hunits.trans hdefault.symm⟩
    · rintro ⟨j, hj, hunits⟩
      exact ⟨_, hunits, j, hj, rfl⟩
  unfold InitReplaced
  rw [readElement_eq_thrown_iff]
  constructor
  · intro h hloads init hinit hbad
    exact (hunits init hinit).1 ((h init hinit hbad).resolve_left (not_not.2 hloads))
  · intro h init hinit hbad
    by_cases hloads : x.LoadsOutside scheds
    · exact .inr ((hunits init hinit).2 (h hloads init hinit hbad))
    · exact .inl hloads

theorem XMLNode.actionsReplaced_iff (e : LoadEnv) (k : ℕ) (x : XMLNode)
    (scheds : List NamedConfig) : x.ActionsReplaced e k scheds ↔ (x.LoadsOutside scheds →
      ∀ actions, x.getNamedChild (str "actions") = some actions → actions.BadActions →
        actions.OnlyZeroStored) := by
  have htables : ∀ actions, x.getNamedChild (str "actions") = some actions →
      ((∃ tables, readActions x {} = .ok tables ∧
        readActions (x.without (str "actions")) {} = .ok tables) ↔ actions.OnlyZeroStored) := by
    intro actions hactions
    rw [← readActions_eq_default_iff hactions, readActions_without]
    simp [eq_comm]
  unfold ActionsReplaced
  rw [readElement_eq_thrown_iff]
  constructor
  · intro h hloads actions hactions hbad
    exact (htables actions hactions).1 ((h actions hactions hbad).resolve_left (not_not.2 hloads))
  · intro h actions hactions hbad
    by_cases hloads : x.LoadsOutside scheds
    · exact .inr ((htables actions hactions).2 (h hloads actions hactions hbad))
    · exact .inl hloads

/-- A section with a bad value is replaced as a whole exactly when the program is refused for
something else, or the section had stored nothing that differs from the default. -/
theorem sections_replaced_iff (e : LoadEnv) (k : ℕ) (x : XMLNode) (scheds : List NamedConfig) :
    x.InitReplaced e k scheds ∧ x.ActionsReplaced e k scheds ↔ (x.LoadsOutside scheds →
      (∀ init, x.getNamedChild (str "init") = some init → init.BadInit →
        init.FirstUnitRefused e k) ∧
      ∀ actions, x.getNamedChild (str "actions") = some actions → actions.BadActions →
        actions.OnlyZeroStored) := by
  rw [x.initReplaced_iff, x.actionsReplaced_iff, imp_and]

/-- `<start after="5"/><start after="x"/>`, and an exit element for 3 before one for `x`. -/
def halfRead : XMLNode := elementOf (str "P1")
  [{ name := str "init", children := [
      { name := str "start", attributes := [(str "after", str "5")] },
      { name := str "start", attributes := [(str "after", str "x")] }] },
    { name := str "actions", children := [
      { name := str "exit", attributes := [(str "result", str "3")],
        children := [{ name := str "start" }] },
      { name := str "exit", attributes := [(str "result", str "x")] }] }]

/-- The unit after 5 seconds and the entry for 3 are there beside the default ones. -/
theorem sections_halfRead : ¬halfRead.InitReplaced {} 0 [{ name := str "default" }] ∧
    ¬halfRead.ActionsReplaced {} 0 [{ name := str "default" }] := by
  have hbad : ¬IsNumber stol (str "x") ∧ ¬IsNumber stoi (str "x") :=
    ⟨fun h => absurd h.1 (by decide), fun h => absurd h.1 (by decide)⟩
  obtain ⟨scheds, hloads⟩ : ∃ scheds, readElement {} 0 halfRead [{ name := str "default" }] =
    .ok scheds := ⟨_, rfl⟩
  constructor
  · intro h
    have hread : readInit {} 0 halfRead = .ok [(.runProg, 5), (.runProg, 0)] := rfl
    rcases h _ rfl ⟨_, List.mem_of_getElem? (i := 1) rfl, str "x", rfl, hbad.1⟩ with
      hthrown | ⟨units, hunits, j, -, hdefault⟩
    · rw [hloads] at hthrown
      cases hthrown
    · rw [readInit_without] at hdefault
      cases hdefault
      rw [hread] at hunits
      cases hunits
  · intro h
    obtain ⟨t, hread, hthree⟩ : ∃ t, readActions halfRead {} = .ok t ∧ (t.exit 3).isSome :=
      ⟨_, rfl, rfl⟩
    rcases h _ rfl ⟨_, List.mem_of_getElem? (i := 1) rfl, .inr ⟨str "x", by decide, hbad.2⟩⟩ with
      hthrown | ⟨tables, htables, hdefault⟩
    · rw [hloads] at hthrown
      cases hthrown
    · rw [readActions_without] at hdefault
      cases hdefault
      cases hread.symm.trans htables
      exact absurd hthree (by decide)

end Peter
