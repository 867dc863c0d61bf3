import Peter.Load
import Peter.Sequences

/-!
# Places inside sequences

Where a step reads a sequence of commands or takes a remainder by its length: `run` reads the
command at `seq_idx`, `what_next` calls `inc_seq_idx`.  The constructor of `Program` leaves the
sequence empty and `read_config` adds a command for each `<cmd>`, without asking for one.  So all
runs of a loaded file stay inside the sequences exactly when every program that can be started has a
command (`in_bounds_iff`): a program can be started by a unit of its own `<init>`, or by its name,
which an earlier program of the scheduler may hide.
-/

namespace Peter

/-! ## What a step reads -/

namespace World

/-- Where `run` of program `p` reads the sequence, it has a command there. -/
def RunInBounds (e : Env) (p : ProgPtr) (w : World) : Prop :=
  (w.prog p).pid = 0 → e.checkDir (w.prog p).home = true →
    (w.prog p).seqIdx < (w.prog p).seq.length

/-- So it has where an action of `what_next` calls `run`. -/
def ActionInBounds (e : Env) (p : ProgPtr) (res sig : ℤ) (limitReached : Bool) (a : Action)
    (w : World) : Prop :=
  a.actionType = .exec → limitReached = false → w.target p a = p → a.after = 0 →
    (w.setAttribs p p res sig).RunInBounds e p

/-- So it has in all rounds of the loop over the actions. -/
def ActionsInBounds (p : ProgPtr) (res sig : ℤ) (limitReached : Bool) :
    List Action → (ℕ → Env) → World → Prop
  | [], _, _ => True
  | a :: al, env, w => w.ActionInBounds (env 0) p res sig limitReached a ∧
    ∀ w', w.doAction (env 0) p res sig limitReached a = .ok w' →
      ActionsInBounds p res sig limitReached al (fun i => env (i + 1)) w'

/-- In `what_next` the remainder of `inc_seq_idx` is not one by zero, and `run` stays inside. -/
def NextInBounds (env : ℕ → Env) (res sig : ℤ) (p : ProgPtr) (w : World) : Prop :=
  (w.prog p).stopMode ≠ 1 → (w.prog p).seq.length ≠ 0 ∧
    ((w.prog p).seqIdx + 1 = (w.prog p).seq.length →
      ∀ al, (w.prog p).getActions res sig = some al →
        ((w.incSeqIdx p).checkLimits (env 0) p).2.ActionsInBounds p res sig
          ((w.incSeqIdx p).checkLimits (env 0) p).1 al fun i => env (i + 1))

end World

/-- A step of the thread stays inside the sequences: the calls of `run` are those for a due start
unit and those of `what_next`, which the main loop calls when it found the program of a dead
child. -/
def Thread.InBounds (env : ℕ → Env) (t : Thread) (os : OS) : Prop :=
  match t.pc with
  | .firstPass now wui => wui.capacity = t.s.schedule.capacity →
    ∀ wu, t.s.schedule.units[wui.pos]? = some wu → wu.wType = .runProg → wu.delta now ≤ 0 →
      ∀ p ∈ wu.program, World.RunInBounds (env 0) p ⟨t.s, os⟩
  | .poll now _ pid => ∀ c p w, World.wait ⟨t.s, os⟩ (env 0) pid = (.child c, some p, w) →
    let status := c.status.getD 0
    let sig := if wifsignaled status then wtermsig status else 0
    ((w.bury c p now).addDeathEvent now p status).NextInBounds (fun i => env (i + 1))
      (wexitstatus status) sig p
  | _ => True

/-! ## A program with commands -/

namespace World

variable {w w' : World} {p : ProgPtr} {e : Env} {env : ℕ → Env} {res sig : ℤ} {lim : Bool}

theorem actionsInBounds {al : List Action} (h : (w.prog p).seqIdx < (w.prog p).seq.length) :
    w.ActionsInBounds p res sig lim al env := by
  induction al generalizing env w with
  | nil => trivial
  | cons a al ih =>
    constructor
    · intro _ _ _ _ _ _
      have hset := still_setAttribs w p p res sig
      rwa [hset.seqIdx, hset.seq]
    · intro w' hw'
      have hagain : Again env p w w' := again_doAction hw'
      obtain ⟨-, -, hkeep⟩ := hagain.keeps
      exact ih (by rwa [(hkeep p).1, (hkeep p).2])

/-- A dead child that is found runs as the program of its `running` entry. -/
theorem wait_found {pid : ℤ} {c : Child} (h : w.wait e pid = (.child c, some p, w')) :
    w.s.running c.pid = some p ∧ w'.s = w.s := by
  rcases w.wait_cases e pid with ⟨c', p', -, hp, he⟩ | ⟨c', -, -, he⟩ | ⟨-, he | he⟩
  · cases he.symm.trans h
    exact ⟨hp, rfl⟩
  · cases he.symm.trans h
  · cases he.symm.trans h
  · cases he.symm.trans h

/-- `what_next` of a program that has commands stays inside. -/
theorem nextInBounds (h : (w.prog p).seq ≠ []) : w.NextInBounds env res sig p := by
  intro _
  have hpos : 0 < (w.prog p).seq.length := List.length_pos_iff.2 h
  refine ⟨hpos.ne', fun _ al _ => actionsInBounds ?_⟩
  have hcheck := still_checkLimits (w.incSeqIdx p) (env 0) p
  rw [hcheck.seqIdx, hcheck.seq, incSeqIdx, modifyProg_prog_self]
  exact Nat.mod_lt _ hpos

/-! ## Outside the sequences -/

theorem run_undefined (h : ¬w.RunInBounds e p) : w.run e p = .error .undefined := by
  unfold RunInBounds at h
  push Not at h
  obtain ⟨hpid, hdir, hidx⟩ := h
  have hprog : (w.substitute e p).prog p = { w.prog p with
      cmd := ((w.substitute e p).prog p).cmd } := by
    rw [substitute, modifyProg_prog_self]
  unfold run
  rw [if_neg (not_not.2 hpid)]
  dsimp only
  rw [hprog]
  dsimp only
  rw [hdir, List.getElem?_eq_none hidx]
  rfl

theorem whatNext_undefined (h : ¬w.NextInBounds env res sig p) :
    w.whatNext env res sig p = .error .undefined := by
  have hempty : (w.prog p).seq = [] := by
    by_contra hne
    exact h (nextInBounds hne)
  rw [whatNext_eq, if_neg fun hstop => h fun hno => absurd hstop hno, hempty]
  rfl

end World

/-- A step that does not stay inside the sequences has no meaning. -/
theorem Thread.step_undefined {t : Thread} {env : ℕ → Env} {os : OS} (h : ¬t.InBounds env os) :
    t.step env os = .error .undefined := by
  unfold InBounds at h
  split at h
  · next now wui hpc =>
    push Not at h
    obtain ⟨hcap, wu, hwu, hty, hdue, p, hp, hrun⟩ := h
    unfold step stepFirstPass
    simp only [hpc, hcap, ne_eq, not_true_eq_false, if_false, hwu]
    unfold World.handleUnit
    simp only [hty, if_pos hdue, Option.mem_def.1 hp, World.run_undefined hrun]
    rfl
  · next now pri pid hpc =>
    push Not at h
    obtain ⟨c, p, w, hw, hnext⟩ := h
    unfold step stepPoll
    simp only [hpc, hw]
    unfold World.handleDeath
    simp only [World.whatNext_undefined hnext]
    rfl
  · exact absurd trivial h

namespace Process

variable {σ₀ σ σ' : Process} {l : Label} {i : ℕ}

/-- The programs that have commands. -/
def Commanded (σ : Process) (i : ℕ) (p : ProgPtr) : Prop := ((σ.thread i).s.prog p).seq ≠ []

theorem Frame.commanded (h : σ.Frame σ') : σ'.Commanded = σ.Commanded := by
  funext i p
  rw [Commanded, Commanded, ((h.scheduler i).prog p).seq]

/-- Programs without commands are not noted down for a start, and the others are inside their
sequences. -/
structure Placed (σ : Process) : Prop extends σ.Regular where
  confined : σ.Confined False σ.Commanded
  index : ∀ i < σ.count, ∀ p, σ.Commanded i p →
    ((σ.thread i).s.prog p).seqIdx < ((σ.thread i).s.prog p).seq.length

/-- The place of a program in its sequence stays, or is the next one. -/
theorem Regular.index_of_step (hσ : σ.Regular) (h : machine.step l σ = .ok σ') (hi : i < σ.count)
    (p : ProgPtr) : ((σ'.thread i).s.prog p).seqIdx = ((σ.thread i).s.prog p).seqIdx ∨
      ((σ'.thread i).s.prog p).seqIdx =
        (((σ.thread i).s.prog p).seqIdx + 1) % ((σ.thread i).s.prog p).seq.length := by
  rcases hσ.deed h hi with ⟨env, -, -, hdeed⟩ | ⟨-, hstill⟩
  · cases hdeed with
    | idle _ hs => exact .inl (hs.seqIdx p)
    | signal _ hs => exact .inl (hs.seqIdx p)
    | expire _ _ _ ht => exact .inl (ht.keeps Life.seqIdx (fun _ => rfl) p)
    | start _ hs => exact .inl (hs.seqIdx p)
    | @death _ _ _ c q w₁ w₂ _ _ _ _ hbury hagain hw =>
      have hprog : (σ'.thread i).s.prog p = w₂.prog p := congrArg (fun w => w.s.prog p) hw
      rw [hprog, (hagain.keeps.2.2 p).1]
      by_cases hpq : p = q
      · subst hpq
        exact .inr (congrArg Life.seqIdx hbury.self)
      · exact .inl (congrArg Life.seqIdx (hbury.other p hpq))
    | bury _ _ _ ht => exact .inl (ht.keeps Life.seqIdx (fun _ => rfl) p)
    | stray _ _ hs => exact .inl (hs.seqIdx p)
  · exact .inl (hstill.seqIdx p)

theorem Placed.step (hσ : σ.Placed) (h : machine.step l σ = .ok σ') : σ'.Placed := by
  obtain ⟨hf, hconfined⟩ := hσ.confined.step h
  refine ⟨hσ.toRegular.step h, by rwa [hf.commanded], fun i hi p hp => ?_⟩
  rw [hf.count] at hi
  rw [hf.commanded] at hp
  have hidx := hσ.index i hi p hp
  rw [((hf.scheduler i).prog p).seq]
  rcases hσ.toRegular.index_of_step h hi p with he | he
  · rwa [he]
  · rw [he]
    exact Nat.mod_lt _ (by omega)

theorem Placed.inBounds (hσ : σ.Placed) (hi : i < σ.count) (env : ℕ → Env) :
    (σ.thread i).InBounds env σ.os := by
  unfold Thread.InBounds
  split
  · intro _ wu hwu hty _ p hp _ _
    have hcmd := (hσ.confined i).units wu (List.mem_of_getElem? hwu) (.inr hty) p hp
    exact hσ.index i hi p hcmd
  · next now _ _ _ =>
    intro c p w hw
    obtain ⟨hp, hs⟩ := World.wait_found hw
    have hf := (w.bury_frame c p now).trans
      (World.addDeathEvent_frame _ now p (c.status.getD 0))
    refine World.nextInBounds ?_
    rw [World.prog, (hf.prog p).seq, hs]
    exact (hσ.confined i).running _ p hp
  · trivial

end Process

/-! ## A pass that starts nothing -/

/-- All programs are found, and no file can be opened. -/
def refusing (utc : ℤ) : Env := { utc, canOpen := fun _ => false }

namespace World

variable {w : World} {p : ProgPtr}

theorem run_refusing (utc : ℤ) (hpid : (w.prog p).pid = 0)
    (hidx : (w.prog p).seqIdx < (w.prog p).seq.length) :
    ∃ cmd, w.run (refusing utc) p = .ok (w.setCmd p cmd) := by
  have hfound : ∀ home cmd, (refusing utc).findBinary home cmd = true := by
    intro home cmd
    unfold Env.findBinary
    dsimp only [refusing]
    split_ifs
    · rfl
    · exact Bool.or_true _
  have hprog : ∀ cmd, (w.setCmd p cmd).prog p = { w.prog p with cmd } :=
    fun cmd => modifyProg_prog_self ..
  have hsubst : ∃ cmd, w.substitute (refusing utc) p = w.setCmd p cmd := ⟨_, rfl⟩
  obtain ⟨cmd₀, hsubst⟩ := hsubst
  refine ⟨(w.prog p).seq[(w.prog p).seqIdx], ?_⟩
  unfold run
  rw [if_neg (not_not.2 hpid), hsubst]
  dsimp only
  rw [if_neg (by simp [refusing]), hprog]
  dsimp only
  rw [List.getElem?_eq_getElem hidx]
  dsimp only
  rw [if_neg (by rw [hfound]; simp), if_pos (by simp [refusing])]
  exact congrArg Except.ok ((setPid_setCmd (by rw [hprog]; exact hpid) _).trans (setCmd_setCmd ..))

/-- The first pass goes over a unit and starts nothing. -/
theorem handleUnit_refusing {now : ℤ} (utc : ℤ) (pos : ℕ) {wu : WorkUnit}
    (hpid : ∀ p, (w.prog p).pid = 0) (hprog : wu.program.isSome)
    (hidx : wu.wType = .runProg → wu.delta now ≤ 0 → ∀ p ∈ wu.program,
      (w.prog p).seqIdx < (w.prog p).seq.length) :
    ∃ w', handleUnit (refusing utc) now pos wu w = .ok w' ∧ w.Still w' ∧
      (w'.s.schedule = w.s.schedule ∨ w'.s.schedule = w.s.schedule.markUsed pos wu now) := by
  obtain ⟨p, hp⟩ := Option.isSome_iff_exists.1 hprog
  unfold handleUnit
  cases hty : wu.wType <;> simp only [hp]
  case exit => exact ⟨_, rfl, (still_markUsed ..).trans (still_setMode ..), .inr rfl⟩
  case runProg =>
    split_ifs with hdue
    · obtain ⟨cmd, hrun⟩ := run_refusing utc (hpid p) (hidx hty hdue p hp)
      rw [hrun]
      exact ⟨_, rfl, ((still_setCmd (hpid p) cmd).trans (still_markUsed ..)).trans
        (still_setRunning ..), .inr rfl⟩
    · exact ⟨_, rfl, .refl w, .inl rfl⟩
  case endProg =>
    split_ifs with hdue
    · refine ⟨_, rfl, ?_⟩
      have hstill := (still_modifyProg w p (f := fun prog => { prog with stopMode := 0 })
        (by constructor <;> simp) rfl fun _ => rfl).trans (still_addEvent _ now .stop p (-1))
      have hnone := (hstill.pid p).trans (hpid p)
      rw [sendSignal, if_pos hnone]
      exact ⟨hstill.trans (still_markUsed ..), .inr rfl⟩
    · exact ⟨_, rfl, .refl w, .inl rfl⟩
  case nostart => exact ⟨_, rfl, still_markUsed .., .inr rfl⟩
  all_goals exact ⟨_, rfl, .refl w, .inl rfl⟩

end World

namespace Process

variable {σ₀ σ : Process} {i n : ℕ} {now : ℤ}

/-- Scheduler `i` has come to unit `n` of the schedule of `σ₀` in a pass that starts nothing. -/
structure Passing (i : ℕ) (now : ℤ) (n : ℕ) (σ₀ σ : Process) : Prop where
  pc : (σ.thread i).pc = .firstPass now ⟨n, (σ.thread i).s.schedule.capacity⟩
  count : σ.count = σ₀.count
  still : World.Still ⟨(σ₀.thread i).s, σ₀.os⟩ ⟨(σ.thread i).s, σ.os⟩
  units : ∀ m, n ≤ m →
    (σ.thread i).s.schedule.units[m]? = (σ₀.thread i).s.schedule.units[m]?

theorem Passing.put {t : Thread} {os : OS} (hpc : t.pc = .firstPass now ⟨n, t.s.schedule.capacity⟩)
    (hcount : σ.count = σ₀.count) (hstill : World.Still ⟨(σ₀.thread i).s, σ₀.os⟩ ⟨t.s, os⟩)
    (hunits : ∀ m, n ≤ m → t.s.schedule.units[m]? = (σ₀.thread i).s.schedule.units[m]?) :
    Passing i now n σ₀ (σ.put i t os) := by
  have ht : (σ.put i t os).thread i = t := Function.update_self ..
  exact ⟨by rw [ht, hpc], hcount, by rw [ht]; exact hstill, by rw [ht]; exact hunits⟩

/-- The process as it starts, as far as scheduler `i` is concerned. -/
structure Ready (i : ℕ) (σ : Process) : Prop where
  count : i < σ.count
  pc : (σ.thread i).pc = .loop
  mode : (σ.thread i).s.mode = .on
  pid : ∀ p, ((σ.thread i).s.prog p).pid = 0
  program : ∀ wu ∈ (σ.thread i).s.schedule.units, wu.program.isSome

/-- A start unit that a command queues. -/
theorem Ready.addWorkunit (h : σ.Ready i) (t : ℤ) (p : ProgPtr) :
    (σ.addWorkunit i .runProg t (some p)).Ready i := by
  have ht : (σ.addWorkunit i .runProg t (some p)).thread i = { σ.thread i with
      s := (World.addWorkunit ⟨(σ.thread i).s, σ.os⟩ .runProg t (some p)).s } :=
    Function.update_self ..
  refine ⟨h.count, ?_, ?_, ?_, ?_⟩ <;> rw [ht]
  · exact h.pc
  · exact h.mode
  · exact h.pid
  · exact List.forall_mem_append.2 ⟨h.program, by simp⟩

theorem Ready.passing (h : σ.Ready i) (now : ℤ) : ∃ σ',
    machine.step (.thread i fun _ => refusing now) σ = .ok σ' ∧ Passing i now 0 σ σ' := by
  have hstep : (σ.thread i).step (fun _ => refusing now) σ.os = .ok
      ({ σ.thread i with
        pc := .firstPass now ⟨0, (σ.thread i).s.schedule.capacity⟩
        s := { (σ.thread i).s with schedule := { (σ.thread i).s.schedule with
          passStart := (σ.thread i).s.schedule.units } } }, σ.os) := by
    unfold Thread.step
    simp only [h.pc, h.mode]
    rfl
  exact ⟨_, step_thread h.count hstep,
    .put rfl rfl (World.still_schedule ⟨(σ.thread i).s, σ.os⟩ _) fun _ _ => rfl⟩

/-- The next unit of the pass, when the step stays inside the sequences. -/
theorem Passing.step (h : Passing i now n σ₀ σ) (h₀ : σ₀.Ready i) {wu : WorkUnit}
    (hwu : (σ₀.thread i).s.schedule.units[n]? = some wu)
    (hin : (σ.thread i).InBounds (fun _ => refusing now) σ.os) : ∃ σ',
    machine.step (.thread i fun _ => refusing now) σ = .ok σ' ∧ Passing i now (n + 1) σ₀ σ' := by
  have hget : (σ.thread i).s.schedule.units[n]? = some wu := (h.units n le_rfl).trans hwu
  have hpid : ∀ p, ((σ.thread i).s.prog p).pid = 0 := fun p => (h.still.pid p).trans (h₀.pid p)
  have hidx : wu.wType = .runProg → wu.delta now ≤ 0 → ∀ p ∈ wu.program,
      ((σ.thread i).s.prog p).seqIdx < ((σ.thread i).s.prog p).seq.length := by
    intro hty hdue p hp
    unfold Thread.InBounds at hin
    rw [h.pc] at hin
    exact hin rfl wu hget hty hdue p hp (hpid p) rfl
  obtain ⟨w, hw, hstill, hsched⟩ := World.handleUnit_refusing (w := ⟨(σ.thread i).s, σ.os⟩)
    now n hpid (h₀.program wu (List.mem_of_getElem? hwu)) hidx
  have hcap : w.s.schedule.capacity = (σ.thread i).s.schedule.capacity := by
    rcases hsched with he | he
    · rw [he]
    · rw [he]
      rfl
  have hunits : ∀ m, n + 1 ≤ m →
      w.s.schedule.units[m]? = (σ.thread i).s.schedule.units[m]? := by
    intro m hm
    rcases hsched with he | he
    · rw [he]
    · rw [he]
      exact List.getElem?_set_ne (by omega)
  have hstep : (σ.thread i).step (fun _ => refusing now) σ.os = .ok ({ σ.thread i with
      s := w.s, pc := .firstPass now ⟨n + 1, (σ.thread i).s.schedule.capacity⟩ }, w.os) := by
    unfold Thread.step
    simp only [h.pc]
    rw [Thread.stepFirstPass, if_neg (by simp), hget]
    dsimp only
    rw [hw]
    rfl
  refine ⟨_, step_thread (h.count ▸ h₀.count) hstep,
    .put (by rw [hcap]) h.count (h.still.trans hstill) fun m hm => ?_⟩
  exact (hunits m hm).trans (h.units m (by omega))

/-- When all runs stay inside the sequences, the pass comes to each unit of the schedule. -/
theorem Ready.reaches (h : σ.Ready i)
    (hin : ∀ ls σ', machine.exec ls σ = .ok σ' → ∀ env, (σ'.thread i).InBounds env σ'.os) (now : ℤ)
    (hn : n ≤ (σ.thread i).s.schedule.units.length) :
    ∃ σ', machine.Reaches σ σ' ∧ Passing i now n σ σ' := by
  induction n with
  | zero =>
    obtain ⟨σ', hstep, hpass⟩ := h.passing now
    exact ⟨σ', ⟨_, Transition.System.exec_singleton hstep⟩, hpass⟩
  | succ n ih =>
    obtain ⟨σ', ⟨ls, hls⟩, hpass⟩ := ih (by omega)
    obtain ⟨σ'', hstep, hpass'⟩ := hpass.step h (List.getElem?_eq_getElem (by omega))
      (hin ls σ' hls _)
    exact ⟨σ'', ⟨_, Transition.System.exec_append_eq_ok.2
      ⟨σ', hls, Transition.System.exec_singleton hstep⟩⟩, hpass'⟩

/-- So the programs of all start units have commands. -/
theorem Ready.commanded (h : σ.Ready i)
    (hin : ∀ ls σ', machine.exec ls σ = .ok σ' → ∀ env, (σ'.thread i).InBounds env σ'.os)
    {wu : WorkUnit} (hwu : wu ∈ (σ.thread i).s.schedule.units) (hty : wu.wType = .runProg)
    {p : ProgPtr} (hp : wu.program = some p) : σ.Commanded i p := by
  obtain ⟨n, hn, hget⟩ := List.getElem_of_mem hwu
  obtain ⟨σ', ⟨ls, hls⟩, hpass⟩ := h.reaches hin wu.tAt hn.le
  have hin' := hin ls σ' hls fun _ => refusing wu.tAt
  unfold Thread.InBounds at hin'
  rw [hpass.pc] at hin'
  have hget' : (σ'.thread i).s.schedule.units[n]? = some wu := by
    rw [hpass.units n le_rfl, List.getElem?_eq_getElem hn, hget]
  have hidx := hin' rfl wu hget' hty wu.delta_self.le p hp ((hpass.still.pid p).trans (h.pid p)) rfl
  intro hempty
  have hseq : ((σ'.thread i).s.prog p).seq = [] := (hpass.still.seq p).trans hempty
  rw [World.prog, hseq] at hidx
  exact absurd hidx (Nat.not_lt_zero _)

/-- Those of the programs that are found by name have too: a command can start them. -/
theorem Ready.commanded_named (h : σ.Ready i)
    (hin : ∀ ls σ', machine.exec ls σ = .ok σ' → ∀ env, (σ'.thread i).InBounds env σ'.os)
    {name : Str} {p : ProgPtr} (hp : (σ.thread i).s.getProgramByName name = some p) :
    σ.Commanded i p := by
  have ht : (σ.addWorkunit i .runProg 0 (some p)).thread i = { σ.thread i with
      s := (World.addWorkunit ⟨(σ.thread i).s, σ.os⟩ .runProg 0 (some p)).s } :=
    Function.update_self ..
  have hnamed : σ.addNamed i .runProg name 0 = σ.addWorkunit i .runProg 0 (some p) := by
    rw [addNamed, hp]
  have hstep : machine.step (.start i name 0) σ = .ok (σ.addWorkunit i .runProg 0 (some p)) :=
    congrArg Except.ok hnamed
  have hmem : ⟨(σ.thread i).s.schedule.nextAddr, .runProg, 0, some p⟩ ∈
      ((σ.addWorkunit i .runProg 0 (some p)).thread i).s.schedule.units := by
    rw [ht]
    exact List.mem_append_right _ (List.mem_singleton_self _)
  have hcmd := (h.addWorkunit 0 p).commanded (p := p)
    (fun ls σ' hls => hin _ σ' (Transition.System.exec_cons_eq_ok.2 ⟨_, hstep, hls⟩)) hmem rfl rfl
  rwa [Commanded, ht] at hcmd

end Process

/-! ## The programs of a file -/

/-- The element has a command. -/
def XMLNode.HasCommand (x : XMLNode) : Prop := ∃ c ∈ x.children, c.name = str "cmd"

/-- Element `m` of those of a scheduler can be started: it has a start unit of its own, or no
element before it has its name. -/
def Startable (e : LoadEnv) (ys : List (XMLNode × ℕ)) (m : ℕ) (y : XMLNode × ℕ) : Prop :=
  (∃ units t, readInit e y.2 y.1 = .ok units ∧ (.runProg, t) ∈ units) ∨
  ∀ m' < m, ∀ y', ys[m']? = some y' →
    y'.1.attribute? (str "name") ≠ y.1.attribute? (str "name")

theorem readSeq_ne_nil_iff {x : XMLNode} : readSeq x ≠ [] ↔ x.HasCommand := by
  simp [readSeq, XMLNode.HasCommand]

section Loaded

variable {e : LoadEnv} {config : XMLNode} {cfg cfg' : Config} {scheds : List NamedConfig} {i : ℕ}
  {s s₀ : NamedConfig} {ys : List (XMLNode × ℕ)}

theorem loaded_programs (hs : scheds[i]? = some s) :
    ((Process.loaded scheds).thread i).s.programs = List.range s.programs.length := by
  simp [Process.loaded, Process.configured, Scheduler.configured, hs]

theorem loaded_prog (hs : scheds[i]? = some s) (p : ProgPtr) :
    ((Process.loaded scheds).thread i).s.prog p = s.programs.getD p { name := [] } := by
  simp [Process.loaded, Process.configured, Scheduler.configured, hs]

theorem loaded_tasks (hs : scheds[i]? = some s) :
    ((Process.loaded scheds).thread i).s.schedule.units.map WorkUnit.task =
      s.init.map fun u => (u.1, u.2.1, some u.2.2) := by
  rw [← Schedule.ofInit_tasks]
  simp [Process.loaded, Process.configured, Scheduler.configured, hs]

theorem loaded_confined_of_le (hi : scheds.length ≤ i) :
    ((Process.loaded scheds).thread i).s.Confined False ((Process.loaded scheds).Commanded i) := by
  have hnone : scheds[i]? = none := List.getElem?_eq_none hi
  constructor
  · simp [Process.loaded, Process.configured, Scheduler.configured, Scheduler.getProgramByName,
      hnone]
  · simp [Process.loaded, Process.configured, Scheduler.configured, Schedule.ofInit, hnone]
  · simp [Process.loaded, Process.configured, Scheduler.configured]

/-- The programs of a scheduler are those of its elements, one by one. -/
theorem Adds.loaded_iff (h : Adds e ys s₀ s) (hempty : s₀.toSchedulerConfig = {})
    (hs : scheds[i]? = some s) : s.programs.length = ys.length ∧ ∀ m y, ys[m]? = some y →
      y.1.attribute? (str "name") = some (((Process.loaded scheds).thread i).s.prog m).name ∧
      ((Process.loaded scheds).Commanded i m ↔ y.1.HasCommand) := by
  obtain ⟨progs, hprogs, hall⟩ := h.programs
  rw [show s₀.programs = [] from congrArg SchedulerConfig.programs hempty, List.nil_append] at hprogs
  rw [hprogs]
  refine ⟨hall.length_eq.symm, fun m y hy => ?_⟩
  obtain ⟨hm, rfl⟩ := List.getElem?_eq_some_iff.1 hy
  have hm' : m < progs.length := hall.length_eq ▸ hm
  obtain ⟨hname, hseq, -⟩ := readProgram_cases (hall.get hm hm')
  have hprog : ((Process.loaded scheds).thread i).s.prog m = progs[m] := by
    rw [loaded_prog hs, hprogs]
    simp [List.getD, hm']
  rw [Process.Commanded, hprog, ← readSeq_ne_nil_iff]
  exact ⟨hname, by rw [show progs[m].seq = _ from hseq]; exact Iff.rfl⟩

/-- `get_program_by_name` finds the first element with the name. -/
theorem Adds.named_iff (h : Adds e ys s₀ s) (hempty : s₀.toSchedulerConfig = {})
    (hs : scheds[i]? = some s) (name : Str) (p : ℕ) :
    ((Process.loaded scheds).thread i).s.getProgramByName name = some p ↔
      ∃ y, ys[p]? = some y ∧ y.1.attribute? (str "name") = some name ∧
        ∀ m' < p, ∀ y', ys[m']? = some y' → y'.1.attribute? (str "name") ≠ some name := by
  obtain ⟨hlen, hyprog⟩ := h.loaded_iff hempty hs
  have hfind : ((Process.loaded scheds).thread i).s.getProgramByName name = some p ↔
      (((Process.loaded scheds).thread i).s.prog p).name = name ∧ p < ys.length ∧
        ∀ m' < p, (((Process.loaded scheds).thread i).s.prog m').name ≠ name := by
    unfold Scheduler.getProgramByName
    rw [loaded_programs hs, hlen, List.find?_range_eq_some]
    simp
  rw [hfind]
  constructor
  · rintro ⟨hname, hp, hfirst⟩
    have hy : ys[p]? = some ys[p] := List.getElem?_eq_getElem hp
    refine ⟨ys[p], hy, by rw [(hyprog p _ hy).1, hname], fun m' hm' y' hy' hsame => ?_⟩
    rw [(hyprog m' y' hy').1] at hsame
    exact hfirst m' hm' (Option.some.inj hsame)
  · rintro ⟨y, hy, hname, hfirst⟩
    have hp := (List.getElem?_eq_some_iff.1 hy).1
    rw [(hyprog p y hy).1] at hname
    refine ⟨Option.some.inj hname, hp, fun m' hm' hsame => ?_⟩
    have hy' : ys[m']? = some ys[m'] := List.getElem?_eq_getElem (hm'.trans hp)
    exact hfirst m' hm' _ hy' (by rw [(hyprog m' _ hy').1, hsame])

/-- The start units are those that the elements are read to. -/
theorem Adds.startUnit_iff (h : Adds e ys s₀ s) (hempty : s₀.toSchedulerConfig = {})
    (hs : scheds[i]? = some s) (p : ℕ) :
    (∃ wu ∈ ((Process.loaded scheds).thread i).s.schedule.units,
      wu.wType = .runProg ∧ wu.program = some p) ↔
      ∃ y units t, ys[p]? = some y ∧ readInit e y.2 y.1 = .ok units ∧ (.runProg, t) ∈ units := by
  have hprograms : s₀.programs = [] := congrArg SchedulerConfig.programs hempty
  have hinit : s₀.init = [] := congrArg SchedulerConfig.init hempty
  have htask : (∃ wu ∈ ((Process.loaded scheds).thread i).s.schedule.units,
      wu.wType = .runProg ∧ wu.program = some p) ↔ ∃ t, (WType.runProg, t, p) ∈ s.init := by
    have hmem : ∀ t, (WType.runProg, t, some p) ∈
        ((Process.loaded scheds).thread i).s.schedule.units.map WorkUnit.task ↔
        (WType.runProg, t, p) ∈ s.init := by
      intro t
      rw [loaded_tasks hs]
      simp
    constructor
    · rintro ⟨wu, hwu, hty, hp⟩
      refine ⟨wu.tAt, (hmem wu.tAt).1 (List.mem_map.2 ⟨wu, hwu, ?_⟩)⟩
      rw [WorkUnit.task, hty, hp]
    · rintro ⟨t, ht⟩
      obtain ⟨wu, hwu, htask⟩ := List.mem_map.1 ((hmem t).2 ht)
      exact ⟨wu, hwu, congrArg Prod.fst htask, congrArg (fun u => u.2.2) htask⟩
  rw [htask]
  constructor
  · rintro ⟨t, ht⟩
    rcases (h.mem_init (p := p)).1 ht with ht | ⟨m, y, units, hy, hread, hu, hp⟩
    · rw [hinit] at ht
      cases ht
    · rw [hprograms, List.length_nil, Nat.zero_add] at hp
      exact ⟨y, units, t, hp ▸ hy, hread, hu⟩
  · rintro ⟨y, units, t, hy, hread, hu⟩
    refine ⟨t, (h.mem_init (p := p)).2 (.inr ⟨p, y, units, hy, hread, hu, ?_⟩)⟩
    rw [hprograms, List.length_nil, Nat.zero_add]

/-- The programs that are noted down for a start have commands exactly when the elements that can be
started have. -/
theorem Adds.confined_iff (h : Adds e ys s₀ s) (hempty : s₀.toSchedulerConfig = {})
    (hs : scheds[i]? = some s) :
    ((Process.loaded scheds).thread i).s.Confined False ((Process.loaded scheds).Commanded i) ↔
      ∀ m y, ys[m]? = some y → Startable e ys m y → y.1.HasCommand := by
  obtain ⟨hlen, hyprog⟩ := h.loaded_iff hempty hs
  have hnamed := h.named_iff hempty hs
  have hunits := h.startUnit_iff hempty hs
  constructor
  · rintro hconf m y hy (⟨units, t, hread, hu⟩ | hfirst)
    · obtain ⟨wu, hwu, hty, hp⟩ := (hunits m).2 ⟨y, units, t, hy, hread, hu⟩
      exact (hyprog m y hy).2.1 (hconf.units wu hwu (.inr hty) m hp)
    · refine (hyprog m y hy).2.1 (hconf.named _ m ((hnamed _ m).2 ⟨y, hy, (hyprog m y hy).1, ?_⟩))
      rwa [← (hyprog m y hy).1]
  · intro hall
    constructor
    case named =>
      intro name p hp
      obtain ⟨y, hy, hname, hfirst⟩ := (hnamed name p).1 hp
      exact (hyprog p y hy).2.2 (hall p y hy (.inr (by rwa [hname])))
    case units =>
      intro wu hwu hty p hp
      obtain ⟨y, units, t, hy, hread, hu⟩ := (hunits p).1 ⟨wu, hwu, hty.resolve_left id, hp⟩
      exact (hyprog p y hy).2.2 (hall p y hy (.inl ⟨units, t, hread, hu⟩))
    case running => exact fun pid p hp => nomatch hp

end Loaded

namespace Process

/-- PETeR with a loaded file stays inside the sequences in all runs when the programs that are noted
down for a start have commands, and only then. -/
theorem loaded_in_bounds_iff {e : LoadEnv} {config : XMLNode} {cfg cfg' : Config}
    {scheds : List NamedConfig} (h : readConfig e config cfg = .ok (scheds, cfg')) :
    (∀ ls σ, machine.exec ls (loaded scheds) = .ok σ → ∀ i < σ.count, ∀ env,
      (σ.thread i).InBounds env σ.os) ↔ (loaded scheds).Confined False (loaded scheds).Commanded := by
  obtain ⟨h₀, hnew, -⟩ := loaded_initial h
  constructor
  · intro hin i
    rcases Nat.lt_or_ge i scheds.length with hi | hi
    case inr => exact loaded_confined_of_le hi
    have hcount : i < (loaded scheds).count := by
      simpa [loaded, configured] using hi
    have hready : (loaded scheds).Ready i :=
      ⟨hcount, rfl, rfl, (h₀.scheduler i).pid, (h₀.scheduler i).schedule.program⟩
    have hin₀ : ∀ ls σ, machine.exec ls (loaded scheds) = .ok σ → ∀ env,
        (σ.thread i).InBounds env σ.os :=
      fun ls σ hls => hin ls σ hls i (by rwa [h₀.count_of_run hls])
    constructor
    case named => exact fun name p hp => hready.commanded_named hin₀ hp
    case units =>
      exact fun wu hwu hty p hp => hready.commanded hin₀ hwu (hty.resolve_left id) hp
    case running =>
      intro pid p hp
      rw [(h₀.scheduler i).running] at hp
      cases hp
  · intro hconfined ls σ hls i hi env
    have hplaced : (loaded scheds).Placed := by
      refine ⟨h₀.regular, hconfined, fun j _ p hp => ?_⟩
      have hidx : (((loaded scheds).thread j).s.prog p).seqIdx = 0 :=
        congrArg Life.seqIdx (hnew j p)
      rw [hidx]
      exact List.length_pos_iff.2 hp
    exact (Transition.System.exec_invariant (fun _ _ _ hσ => hσ.step) hplaced hls).inBounds hi env

/-- With a loaded file PETeR reads inside the sequences and takes no remainder by zero, in every
state of every run, exactly when each program that can be started has a command. -/
theorem in_bounds_iff {e : LoadEnv} {config : XMLNode} {cfg cfg' : Config}
    {scheds : List NamedConfig} (h : readConfig e config cfg = .ok (scheds, cfg')) :
    (∀ ls σ, machine.exec ls (loaded scheds) = .ok σ → ∀ i < σ.count, ∀ env,
      (σ.thread i).InBounds env σ.os) ↔
    ∀ i < scheds.length, ∀ m y, (elementsFor scheds i 0 (programElements config))[m]? = some y →
      Startable e (elementsFor scheds i 0 (programElements config)) m y → y.1.HasCommand := by
  have hiff : ∀ i < scheds.length, ((loaded scheds).thread i).s.Confined False
      ((loaded scheds).Commanded i) ↔
      ∀ m y, (elementsFor scheds i 0 (programElements config))[m]? = some y →
        Startable e (elementsFor scheds i 0 (programElements config)) m y → y.1.HasCommand := by
    intro i hi
    have hs := List.getElem?_eq_getElem hi
    obtain ⟨s₀, hempty, hadds⟩ := (readConfig_cases h).1 i _ hs
    exact hadds.confined_iff hempty hs
  rw [loaded_in_bounds_iff h]
  constructor
  · exact fun hconf i hi => (hiff i hi).1 (hconf i)
  · intro hall i
    rcases Nat.lt_or_ge i scheds.length with hi | hi
    · exact (hiff i hi).2 (hall i hi)
    · exact loaded_confined_of_le hi

/-- A program with a command. -/
theorem in_bounds_iff_sleeper : ∃ scheds cfg',
    readConfig {} (configOf [elementOf (str "x")
      [{ name := str "cmd", contents := str "/bin/sleep 10" }]]) {} = .ok (scheds, cfg') ∧
    ∀ ls σ, machine.exec ls (loaded scheds) = .ok σ → ∀ i < σ.count, ∀ env,
      (σ.thread i).InBounds env σ.os := by
  obtain ⟨r, hr⟩ : ∃ r, readConfig {} (configOf [elementOf (str "x")
      [{ name := str "cmd", contents := str "/bin/sleep 10" }]]) {} = .ok r := ⟨_, rfl⟩
  refine ⟨r.1, r.2, hr, (in_bounds_iff hr).2 fun i _ m y hy _ => ?_⟩
  have hmem := List.fst_mem_of_mem_zipIdx (mem_elementsFor.1 (List.mem_of_getElem? hy)).1
  rw [List.mem_singleton.1 hmem]
  exact ⟨_, List.mem_singleton_self _, rfl⟩

/-- A program without one: the start unit it has by default. -/
theorem in_bounds_fails : ¬∀ (e : LoadEnv) (config : XMLNode) (cfg cfg' : Config)
    (scheds : List NamedConfig), readConfig e config cfg = .ok (scheds, cfg') →
    ∀ ls σ, machine.exec ls (loaded scheds) = .ok σ → ∀ i < σ.count, ∀ env,
      (σ.thread i).InBounds env σ.os := by
  intro h
  obtain ⟨scheds, cfg', σ, hread, hexec, hcount, hpc, hwu, hprog⟩ : ∃ scheds cfg' σ,
      readConfig {} (configOf [elementOf (str "x") []]) {} = .ok (scheds, cfg') ∧
      machine.exec [.thread 0 fun _ => {}] (loaded scheds) = .ok σ ∧ 0 < σ.count ∧
      (σ.thread 0).pc = .firstPass 0 ⟨0, (σ.thread 0).s.schedule.capacity⟩ ∧
      (σ.thread 0).s.schedule.units[0]? = some ⟨0, .runProg, 0, some 0⟩ ∧
      ((σ.thread 0).s.prog 0).pid = 0 ∧ ((σ.thread 0).s.prog 0).seq = [] :=
    ⟨_, _, _, rfl, rfl, by decide, rfl, rfl, rfl, rfl⟩
  have hin := h {} _ {} cfg' scheds hread _ σ hexec 0 hcount fun _ => {}
  unfold Thread.InBounds at hin
  rw [hpc] at hin
  have hlt := hin rfl _ hwu rfl (by decide) 0 rfl hprog.1 rfl
  rw [World.prog, hprog.2] at hlt
  exact absurd hlt (Nat.not_lt_zero _)

end Process

end Peter
