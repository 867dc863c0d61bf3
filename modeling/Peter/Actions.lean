import Peter.Deeds
import Peter.Exits
import Peter.Lib.History

/-!
# The actions after an exit

The loop of `what_next` over an action list is a transition system of its own, with a step for each
action (`actionLoop`).  A reached limit takes the starts of the program itself out of it and
nothing else (`limit_suppresses_self_starts`).  An action for a name that no program has falls back
on the program whose exit is handled, and leaves it alone only when it finds nothing to do for it
(`actions_confined_iff`).
-/

namespace Peter

/-! ## The loop -/

/-- The loop of `what_next`: a round takes an action and what the system answers to it. -/
def actionLoop (p : ProgPtr) (res sig : ℤ) (limitReached : Bool) :
    Transition.System World (Env × Action) Halt :=
  ⟨fun l w => w.doAction l.1 p res sig limitReached l.2⟩

/-- The rounds of the loop over a list. -/
def rounds (env : ℕ → Env) : List Action → List (Env × Action)
  | [] => []
  | a :: al => (env 0, a) :: rounds (fun i => env (i + 1)) al

/-- A unit but for its address. -/
abbrev Task := WType × ℤ × Option ProgPtr

def WorkUnit.task (wu : WorkUnit) : Task := (wu.wType, wu.tAt, wu.program)

namespace World

variable {w w' w'' : World} {p : ProgPtr} {e : Env} {env : ℕ → Env} {res sig : ℤ} {lim : Bool}
  {a : Action}

/-- The tasks queued on the way from `w` to `w'`. -/
def queuedIn (w w' : World) : List Task :=
  (w'.s.schedule.added.drop w.s.schedule.added.length).map WorkUnit.task

theorem queuedIn_of_eq (h : w'.s.schedule.added = w.s.schedule.added) : w.queuedIn w' = [] := by
  simp [queuedIn, h]

theorem queuedIn_addWorkunit (h : w'.s.schedule.added = w.s.schedule.added) (ty : WType) (t : ℤ)
    (q : Option ProgPtr) : w.queuedIn (w'.addWorkunit ty t q) = [(ty, t, q)] := by
  simp [queuedIn, addWorkunit, Schedule.pushBack, h, WorkUnit.task]

theorem setAttribs_prog_of_ne (w : World) (p : ProgPtr) {q r : ProgPtr} (h : r ≠ q) (res sig : ℤ) :
    (w.setAttribs p q res sig).prog r = w.prog r := by
  unfold setAttribs addSAttrib
  rw [modifyProg_prog_of_ne _ h, modifyProg_prog_of_ne _ h, modifyProg_prog_of_ne _ h]

theorem setAttribs_prog_self (w : World) (p q : ProgPtr) (res sig : ℤ) :
    (w.setAttribs p q res sig).prog q = { w.prog q with
      sAttribs := Function.update (Function.update (Function.update (w.prog q).sAttribs
        (str "res") (toStr res)) (str "sig") (toStr sig)) (str "name") (w.prog p).name } := by
  by_cases hp : p = q
  · subst hp
    simp [setAttribs, addSAttrib, prog, modifyProg]
  · simp [setAttribs, addSAttrib, prog, modifyProg, Function.update_of_ne hp]

/-- `run` keeps the name and the attributes of every program. -/
theorem run_attribs (h : w.run e p = .ok w') (q : ProgPtr) :
    (w'.prog q).name = (w.prog q).name ∧ (w'.prog q).sAttribs = (w.prog q).sAttribs := by
  have hcmd : ∀ cmd, ((w.setCmd p cmd).prog q).name = (w.prog q).name ∧
      ((w.setCmd p cmd).prog q).sAttribs = (w.prog q).sAttribs := by
    intro cmd
    unfold setCmd
    by_cases hq : q = p
    · rw [hq, modifyProg_prog_self]
      exact ⟨rfl, rfl⟩
    · rw [modifyProg_prog_of_ne w hq]
      exact ⟨rfl, rfl⟩
  cases ran_of_run h with
  | running => exact ⟨rfl, rfl⟩
  | missing => exact hcmd _
  | refused => exact hcmd _
  | launched =>
    by_cases hq : q = p
    · rw [hq, launched_prog]
      exact ⟨rfl, rfl⟩
    · rw [launched_prog_of_ne w e _ _ hq]
      exact ⟨rfl, rfl⟩

/-! ## A reached limit -/

/-- The action starts program `p` itself. -/
def SelfStart (p : ProgPtr) (w : World) (a : Action) : Prop :=
  a.actionType = .exec ∧ w.target p a = p

instance (p : ProgPtr) (w : World) (a : Action) : Decidable (w.SelfStart p a) := instDecidableAnd

/-- The two worlds have the same programs, with the same names and attributes. -/
structure Alike (w₁ w₂ : World) : Prop where
  programs : w₂.s.programs = w₁.s.programs
  name : ∀ q, (w₂.prog q).name = (w₁.prog q).name
  sAttribs : ∀ q, (w₂.prog q).sAttribs = (w₁.prog q).sAttribs

theorem Alike.target {w₁ w₂ : World} (h : w₁.Alike w₂) (p : ProgPtr) (a : Action) :
    w₂.target p a = w₁.target p a := by
  unfold World.target Scheduler.getProgramByName
  rw [h.programs]
  refine congrArg (fun f => (List.find? f w₁.s.programs).getD p) (funext fun q => ?_)
  exact congrArg (fun n => decide (n = a.prog)) (h.name q)

theorem Alike.refl (w : World) : w.Alike w := ⟨rfl, fun _ => rfl, fun _ => rfl⟩

theorem Alike.symm {w₁ w₂ : World} (h : w₁.Alike w₂) : w₂.Alike w₁ :=
  ⟨h.programs.symm, fun q => (h.name q).symm, fun q => (h.sAttribs q).symm⟩

theorem Alike.trans {w₁ w₂ w₃ : World} (h : w₁.Alike w₂) (h' : w₂.Alike w₃) : w₁.Alike w₃ :=
  ⟨h'.programs.trans h.programs, fun q => (h'.name q).trans (h.name q),
    fun q => (h'.sAttribs q).trans (h.sAttribs q)⟩

theorem Alike.setAttribs {w₁ w₂ : World} (h : w₁.Alike w₂) (p q : ProgPtr) (res sig : ℤ) :
    (w₁.setAttribs p q res sig).Alike (w₂.setAttribs p q res sig) where
  programs := h.programs
  name r := by
    by_cases hr : r = q
    · rw [hr, setAttribs_prog_self, setAttribs_prog_self]
      exact h.name q
    · rw [setAttribs_prog_of_ne _ _ hr, setAttribs_prog_of_ne _ _ hr]
      exact h.name r
  sAttribs r := by
    by_cases hr : r = q
    · rw [hr, setAttribs_prog_self, setAttribs_prog_self, h.sAttribs, h.name]
    · rw [setAttribs_prog_of_ne _ _ hr, setAttribs_prog_of_ne _ _ hr]
      exact h.sAttribs r

/-- An action sets the same attributes whatever else it does. -/
theorem Acted.alike (h : Acted e p res sig lim a w w') :
    (w.setAttribs p (w.target p a) res sig).Alike w' := by
  cases h with
  | direct _ _ hq _ hrun =>
    rw [hq]
    have hf := (restart_run hrun).frame
    exact ⟨hf.programs, fun q => (run_attribs hrun q).1, fun q => (run_attribs hrun q).2⟩
  | queued => exact ⟨rfl, fun _ => rfl, fun _ => rfl⟩
  | passed => exact .refl _

/-- What an action queues that is no start of the program itself. -/
theorem Acted.queuedIn (h : Acted e p res sig lim a w w') (hself : ¬w.SelfStart p a) :
    w.queuedIn w' = (a.unit e.now lim p (w.target p a)).toList.map
      fun u => (u.1, u.2, some (w.target p a)) := by
  have hset : (w.setAttribs p (w.target p a) res sig).s.schedule.added = w.s.schedule.added := rfl
  cases h with
  | direct hty _ hq => exact absurd ⟨hty, hq⟩ hself
  | queued hunit =>
    rw [hunit, queuedIn_addWorkunit hset]
    rfl
  | passed hunit =>
    rw [hunit, queuedIn_of_eq hset]
    rfl

theorem unit_eq_of_not_self {now : ℤ} {q : ProgPtr} (h : ¬(a.actionType = .exec ∧ q = p))
    (lim lim' : Bool) : a.unit now lim p q = a.unit now lim' p q := by
  unfold Action.unit
  cases hty : a.actionType with
  | exec =>
    have hq : q ≠ p := fun hq => h ⟨hty, hq⟩
    simp [hq]
  | _ => rfl

theorem doAction_limited (w : World) (e : Env) (p : ProgPtr) (res sig : ℤ) (a : Action) :
    ∃ w', w.doAction e p res sig true a = .ok w' := by
  rw [doAction_eq]
  cases a.actionType with
  | exec =>
    dsimp only
    by_cases hq : w.target p a = p
    · exact ⟨_, if_pos ⟨rfl, hq⟩⟩
    · rw [if_neg fun h => hq h.2, if_neg fun h => hq h.1]
      exact ⟨_, rfl⟩
  | kill =>
    dsimp only
    split_ifs
    · exact ⟨_, rfl⟩
    · exact ⟨_, rfl⟩
  | _ => exact ⟨_, rfl⟩

/-- What a round queues for an action that is no start of the program itself. -/
def othersIn (p : ProgPtr) (w : World) (l : Env × Action) (w' : World) : List Task :=
  if w.SelfStart p l.2 then [] else w.queuedIn w'

/-- A round with the limit reached goes along with one without limit. -/
theorem Alike.doAction {w₁ w₂ w₂' : World} (h : w₁.Alike w₂)
    (h₂ : w₂.doAction e p res sig false a = .ok w₂') :
    ∃ w₁', w₁.doAction e p res sig true a = .ok w₁' ∧ w₁'.Alike w₂' ∧
      w₁.othersIn p (e, a) w₁' = w₂.othersIn p (e, a) w₂' := by
  obtain ⟨w₁', h₁⟩ := w₁.doAction_limited e p res sig a
  have hacted₁ := acted_of_doAction h₁
  have hacted₂ := acted_of_doAction h₂
  have htarget := h.target p a
  have hset := h.setAttribs p (w₁.target p a) res sig
  have halike₂ := hacted₂.alike
  rw [htarget] at halike₂
  refine ⟨w₁', h₁, (hacted₁.alike.symm.trans hset).trans halike₂, ?_⟩
  have hself : w₂.SelfStart p a ↔ w₁.SelfStart p a := by rw [SelfStart, SelfStart, htarget]
  by_cases hs : w₁.SelfStart p a
  · rw [othersIn, othersIn, if_pos hs, if_pos (hself.2 hs)]
  · rw [othersIn, othersIn, if_neg hs, if_neg (mt hself.1 hs), hacted₁.queuedIn hs,
      hacted₂.queuedIn (mt hself.1 hs), htarget, unit_eq_of_not_self hs true false]

/-- The last command of program `p` has ended, and `what_next` looks for its actions. -/
structure Finished (p : ProgPtr) (w : World) : Prop where
  pid : (w.prog p).pid = 0
  stopMode : (w.prog p).stopMode = 0
  last : (w.prog p).seqIdx + 1 = (w.prog p).seq.length

theorem Finished.whatNext_eq (h : w.Finished p) {al : ActionList}
    (hal : (w.prog p).getActions res sig = some al) : w.whatNext env res sig p =
      ((w.incSeqIdx p).checkLimits (env 0) p).2.doActions p res sig
        ((w.incSeqIdx p).checkLimits (env 0) p).1 al fun i => env (i + 1) := by
  have hlast := h.last
  rw [World.whatNext_eq, h.stopMode, if_neg (by decide), if_neg (by omega),
    if_neg (not_not.2 hlast), hal, Option.elim_some]

theorem alike_modifyProg (w : World) (p : ProgPtr) {f : Program → Program}
    (hname : (f (w.prog p)).name = (w.prog p).name)
    (hattribs : (f (w.prog p)).sAttribs = (w.prog p).sAttribs) : w.Alike (w.modifyProg p f) where
  programs := rfl
  name q := by
    by_cases hq : q = p
    · rw [hq, modifyProg_prog_self, hname]
    · rw [modifyProg_prog_of_ne w hq]
  sAttribs q := by
    by_cases hq : q = p
    · rw [hq, modifyProg_prog_self, hattribs]
    · rw [modifyProg_prog_of_ne w hq]

theorem checkLimits_added (w : World) (e : Env) (p : ProgPtr) :
    (w.checkLimits e p).2.s.schedule.added = w.s.schedule.added := by
  unfold checkLimits
  dsimp only
  split_ifs <;> rfl

end World

/-! ## What an action touches -/

/-- The call starts or signals one of the programs `only`. -/
def Obs.About (only : ProgPtr → Prop) : Obs → Prop
  | .fork _ p _ _ => only p
  | .kill _ p _ _ _ => only p
  | .waited .. => False

namespace World

variable {w w' w'' : World} {p : ProgPtr} {e : Env} {env : ℕ → Env} {res sig : ℤ} {lim : Bool}
  {a : Action}

/-- From `w` to `w'` nothing is done to a program, and nothing queued for one, but to those of
`only`. -/
structure Touches (only : ProgPtr → Prop) (w w' : World) : Prop where
  prog : ∀ q, ¬only q → w'.prog q = w.prog q
  units : History.AddsOnly (fun w : World => w.s.schedule.added)
    (fun wu => ∃ q, wu.program = some q ∧ only q) w w'
  calls : History.AddsOnly (fun w : World => w.os.trace) (Obs.About only) w w'

theorem Touches.trans {only : ProgPtr → Prop} (h : w.Touches only w') (h' : w'.Touches only w'') :
    w.Touches only w'' where
  prog q hq := (h'.prog q hq).trans (h.prog q hq)
  units := h.units.trans h'.units
  calls := h.calls.trans h'.calls

theorem touches_modifyProg (w : World) (q : ProgPtr) (f : Program → Program) :
    w.Touches (fun r => q = r) (w.modifyProg q f) where
  prog _ hr := modifyProg_prog_of_ne w (Ne.symm hr) f
  units := .of_eq rfl
  calls := .of_eq rfl

theorem touches_addWorkunit (w : World) (ty : WType) (t : ℤ) (q : ProgPtr) :
    w.Touches (fun r => q = r) (w.addWorkunit ty t (some q)) where
  prog _ _ := rfl
  units := .singleton rfl ⟨q, rfl, rfl⟩
  calls := .of_eq rfl

theorem touches_addSAttrib (w : World) (q : ProgPtr) (k v : Str) :
    w.Touches (fun r => q = r) (w.addSAttrib q k v) := touches_modifyProg ..

theorem touches_setAttribs (w : World) (p q : ProgPtr) (res sig : ℤ) :
    w.Touches (fun r => q = r) (w.setAttribs p q res sig) :=
  ((touches_addSAttrib ..).trans (touches_addSAttrib ..)).trans (touches_addSAttrib ..)

theorem touches_run (h : w.run e p = .ok w') : w.Touches (fun r => p = r) w' := by
  cases ran_of_run h with
  | running => exact ⟨fun _ _ => rfl, .of_eq rfl, .of_eq rfl⟩
  | missing => exact (touches_modifyProg ..).trans (touches_addWorkunit ..)
  | refused => exact touches_modifyProg ..
  | launched =>
    exact ⟨fun r hr => launched_prog_of_ne w e _ _ (Ne.symm hr), .of_eq rfl, .singleton rfl rfl⟩

/-- An action touches the program it falls to. -/
theorem Acted.touches (h : Acted e p res sig lim a w w') :
    w.Touches (fun r => w.target p a = r) w' := by
  cases h with
  | direct _ _ hq _ hrun =>
    rw [hq]
    exact (touches_setAttribs ..).trans (touches_run hrun)
  | queued => exact (touches_setAttribs ..).trans (touches_addWorkunit ..)
  | passed => exact touches_setAttribs ..

/-- The world is as before in all that an action could touch. -/
def Untouched (w w' : World) : Prop := (∀ q, w'.prog q = w.prog q) ∧
  w'.s.schedule.added = w.s.schedule.added ∧ w'.os.trace = w.os.trace

theorem touches_none : w.Touches (fun _ => False) w' ↔ w.Untouched w' := by
  have hnil : ∀ {α : Type} {F : α → Prop} {log : World → List α}, (∀ x, ¬F x) →
      (History.AddsOnly log F w w' ↔ log w' = log w) := by
    intro α F log hF
    refine ⟨?_, .of_eq⟩
    rintro ⟨new, hnew, hall⟩
    rw [hnew, List.eq_nil_iff_forall_not_mem.2 fun x hx => hF x (hall x hx), List.append_nil]
  constructor
  · rintro ⟨hprog, hunits, hcalls⟩
    exact ⟨fun q => hprog q id, (hnil (by simp)).1 hunits,
      (hnil (by intro o; cases o <;> exact id)).1 hcalls⟩
  · rintro ⟨hprog, hunits, hcalls⟩
    exact ⟨fun q _ => hprog q, .of_eq hunits, .of_eq hcalls⟩

/-- The attributes of program `p` are already those that `what_next` sets. -/
def Attributed (p : ProgPtr) (res sig : ℤ) (w : World) : Prop :=
  (w.prog p).sAttribs (str "res") = toStr res ∧ (w.prog p).sAttribs (str "sig") = toStr sig ∧
    (w.prog p).sAttribs (str "name") = (w.prog p).name

theorem setAttribs_iff (w : World) (p : ProgPtr) (res sig : ℤ) :
    ((w.setAttribs p p res sig).prog p).sAttribs = (w.prog p).sAttribs ↔
      w.Attributed p res sig := by
  rw [setAttribs_prog_self]
  constructor
  · intro h
    have hget : ∀ k, Function.update (Function.update (Function.update (w.prog p).sAttribs
        (str "res") (toStr res)) (str "sig") (toStr sig)) (str "name") (w.prog p).name k =
        (w.prog p).sAttribs k := fun k => congrFun h k
    have hsig : str "sig" ≠ str "name" := by decide
    have hres : str "res" ≠ str "name" := by decide
    have hres' : str "res" ≠ str "sig" := by decide
    refine ⟨?_, ?_, ?_⟩
    · rw [← hget, Function.update_of_ne hres, Function.update_of_ne hres', Function.update_self]
    · rw [← hget, Function.update_of_ne hsig, Function.update_self]
    · rw [← hget, Function.update_self]
  · rintro ⟨hres, hsig, hname⟩
    rw [← hres, ← hsig, ← hname, Function.update_eq_self, Function.update_eq_self,
      Function.update_eq_self]

theorem Attributed.still (h : w.Attributed p res sig) (q : ProgPtr) :
    (w.setAttribs p p res sig).prog q = w.prog q := by
  by_cases hq : q = p
  · have hsame := (setAttribs_iff w p res sig).2 h
    rw [setAttribs_prog_self] at hsame
    rw [hq, setAttribs_prog_self]
    exact congrArg (fun sAttribs => { w.prog p with sAttribs }) hsame
  · exact setAttribs_prog_of_ne w p hq res sig

/-- `run` has nothing to do for a program that runs, or whose files are closed and whose command is
in place. -/
def Refused (e : Env) (prog : Program) : Prop := prog.pid ≠ 0 ∨
  e.missing prog = false ∧ e.startable prog = false ∧ prog.seq[prog.seqIdx]? = some prog.cmd

theorem run_untouched_iff (h : w.run e p = .ok w') :
    w.Untouched w' ↔ Refused e (w.prog p) := by
  cases ran_of_run h with
  | running hpid => exact iff_of_true ⟨fun _ => rfl, rfl, rfl⟩ (.inl hpid)
  | missing hpid hmissing =>
    refine iff_of_false ?_ ?_
    · rintro ⟨-, hunits, -⟩
      simp [addWorkunit, Schedule.pushBack, setCmd, modifyProg] at hunits
    · rintro (h | ⟨h, -⟩)
      · exact h hpid
      · exact absurd (h.symm.trans hmissing) (by simp)
  | @refused cmd hpid hfound hno hcmd =>
    constructor
    · rintro ⟨hprog, -, -⟩
      have hself := hprog p
      rw [setCmd, modifyProg_prog_self] at hself
      have hsame : cmd = (w.prog p).cmd := congrArg Program.cmd hself
      exact .inr ⟨hfound, hno, hsame ▸ hcmd⟩
    · rintro (h | ⟨-, -, h⟩)
      · exact absurd hpid h
      · have hsame : cmd = (w.prog p).cmd := Option.some.inj (hcmd.symm.trans h)
        refine ⟨fun q => ?_, rfl, rfl⟩
        by_cases hq : q = p
        · subst hq
          rw [setCmd, modifyProg_prog_self, hsame]
        · rw [setCmd, modifyProg_prog_of_ne _ hq]
  | launched hpid hok =>
    refine iff_of_false ?_ ?_
    · rintro ⟨-, -, hcalls⟩
      simp [launched, forked, OS.fork, setCmd, modifyProg, addEvent, setRunning] at hcalls
    · rintro (h | ⟨-, h, -⟩)
      · exact h hpid
      · exact absurd (h.symm.trans hok) (by simp)

/-- The action has nothing to do for the program whose exit is handled: its attributes are already
those to be set, it does not end the scheduler, and a start of it is off by a limit or refused. -/
structure Idle (e : Env) (p : ProgPtr) (res sig : ℤ) (lim : Bool) (w : World) (a : Action) :
    Prop where
  attribs : w.Attributed p res sig
  exit : a.actionType ≠ .exit
  start : a.actionType = .exec → lim = true ∨ a.after = 0 ∧ Refused e (w.prog p)

/-- An action that falls back on the program whose exit is handled leaves it alone only if it has
nothing to do for it. -/
theorem Acted.untouched_iff (h : Acted e p res sig lim a w w') (hp : w.target p a = p) :
    w.Untouched w' ↔ w.Idle e p res sig lim a := by
  cases h with
  | direct hty hlim _ hafter hrun =>
    have hrun_iff := run_untouched_iff hrun
    constructor
    · rintro ⟨hprog, hunits, hcalls⟩
      have hattr : w.Attributed p res sig := by
        rw [← setAttribs_iff, ← (run_attribs hrun p).2, hprog]
      have hrefused := hrun_iff.1 ⟨fun q => (hprog q).trans (hattr.still q).symm, hunits, hcalls⟩
      rw [hattr.still] at hrefused
      exact ⟨hattr, by simp [hty], fun _ => .inr ⟨hafter, hrefused⟩⟩
    · rintro ⟨hattr, -, hidle⟩
      rcases hidle hty with h | ⟨-, hrefused⟩
      · exact absurd (h.symm.trans hlim) (by simp)
      · obtain ⟨hprog, hunits, hcalls⟩ := hrun_iff.2 (by rwa [hattr.still])
        exact ⟨fun q => (hprog q).trans (hattr.still q), hunits, hcalls⟩
  | queued hunit =>
    refine iff_of_false ?_ ?_
    · rintro ⟨-, hunits, -⟩
      simp [addWorkunit, Schedule.pushBack, setAttribs, addSAttrib, modifyProg] at hunits
    · rintro ⟨-, hexit, hidle⟩
      rw [hp] at hunit
      unfold Action.unit at hunit
      cases hty : a.actionType <;> simp only [hty] at hunit
      case exec => rcases hidle hty with h | ⟨h, -⟩ <;> simp [h] at hunit
      case exit => exact hexit hty
      all_goals simp at hunit
  | passed hunit hno =>
    rw [hp] at hunit hno ⊢
    constructor
    · rintro ⟨hprog, -, -⟩
      refine ⟨(setAttribs_iff w p res sig).1 (congrArg _ (hprog p)), fun hty => ?_, fun hty => ?_⟩
      · simp [Action.unit, hty] at hunit
      · cases hlim : lim with
        | true => exact .inl rfl
        | false =>
          have hafter : a.after = 0 := by simpa [Action.unit, hty, hlim] using hunit
          exact absurd ⟨hty, hlim, rfl, hafter⟩ hno
    · rintro ⟨hattr, -, -⟩
      exact ⟨hattr.still, rfl, rfl⟩

/-- The actions that name a program touch only the program of that name in exactly the rounds in
which there is one, or in which the action has nothing to do for the program whose exit is handled,
on which it falls back. -/
theorem actions_confined_iff (p : ProgPtr) (res sig : ℤ) (lim : Bool) (al : List Action)
    (env : ℕ → Env) (w : World) :
    (actionLoop p res sig lim).Along (fun w l w' => l.2.prog ≠ [] →
      w.Touches (fun q => w.s.getProgramByName l.2.prog = some q) w') (rounds env al) w ↔
    (actionLoop p res sig lim).Along (fun w l _ => l.2.prog ≠ [] →
      (w.s.getProgramByName l.2.prog).isSome ∨ w.Idle l.1 p res sig lim l.2) (rounds env al) w := by
  refine Transition.System.along_iff_of_invariant (I := fun _ => True) (fun l w w' _ h => ?_)
    (fun _ _ _ _ _ _ => trivial) trivial
  have hacted := acted_of_doAction h
  refine imp_congr_right fun _ => ?_
  cases hq : w.s.getProgramByName l.2.prog with
  | some q =>
    have htarget : w.target p l.2 = q := by rw [target, hq, Option.getD_some]
    refine iff_of_true ?_ (.inl rfl)
    have ht := hacted.touches
    rw [htarget] at ht
    simpa using ht
  | none =>
    have htarget : w.target p l.2 = p := by rw [target, hq, Option.getD_none]
    simpa [touches_none] using hacted.untouched_iff htarget

/-- An exit action of `web` for a program that its scheduler does not have. -/
def ghostly : World where
  s := { self := 0, name := str "default", programs := [0]
         prog := fun _ => { name := str "web", seq := [str "/bin/web"] } }
  os := ⟨[], []⟩

theorem actions_confined_fails : ¬∀ (p : ProgPtr) (res sig : ℤ) (lim : Bool) (al : List Action)
    (env : ℕ → Env) (w : World), (actionLoop p res sig lim).Along (fun w l w' => l.2.prog ≠ [] →
      w.Touches (fun q => w.s.getProgramByName l.2.prog = some q) w') (rounds env al) w := by
  intro h
  obtain ⟨w', hw', hpid⟩ : ∃ w', ghostly.doAction {} 0 0 0 false
      { actionType := .exec, prog := str "db" } = .ok w' ∧ (w'.prog 0).pid ≠ 0 :=
    ⟨_, rfl, by decide⟩
  have ht := (h 0 0 0 false [{ actionType := .exec, prog := str "db" }] (fun _ => {}) ghostly w'
    hw').1 (by decide)
  have hprog := ht.prog 0 (by decide)
  rw [hprog] at hpid
  exact hpid rfl

end World

end Peter
