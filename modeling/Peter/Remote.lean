import Peter.Access
import Peter.Answers
import Peter.Launch
import Peter.Progress
import Peter.Reaping

/-!
# What becomes of a command

A client is answered as soon as its command has been carried out, and that is no more than a unit in
the schedule.  What was asked for follows in the steps of other threads: a program is started
(`start_command`) or gets its stop signal (`stop_command`), and `<quit />` ends the schedulers and
with them PETeR (`quit_command_iff`).
-/

namespace Peter

/-- The steps of the commands that the session carried out are among those of a run. -/
def Session.CarriedOut (now : ℤ) (c : Session) (made : Label → Prop) : Prop :=
  ∀ d ∈ c.acts, ∀ l ∈ d.1.labels now, made l

theorem Session.carriedOut_of_acts {now : ℤ} {c : Session} {made : Label → Prop} {a : Act}
    {text : Str} (hacts : c.acts = [(a, text)]) (h : ∀ l ∈ a.labels now, made l) :
    c.CarriedOut now made := by
  rw [CarriedOut, hacts]
  exact List.forall_mem_singleton.2 h

theorem Session.accepts_plain {d : Str × XMLNode} {x : XMLNode}
    (hparse : (Host.knowing [d]).parse d.1 = .ok x) (hx : x.name ≠ str "otp") :
    localOnly.Accepts (.knowing [d]) localhost d.1 none d.1 x :=
  ⟨fun h => absurd h (by decide), by decide, decode_of_plain hparse hx⟩

namespace Thread

/-- What the branch for the time limit does to the children. -/
theorem os_of_limit {t t' : Thread} {os os' : OS} {env : ℕ → Env} {now : ℤ} {pri : ℕ}
    {p : ProgPtr} (hpc : t.pc = .limits now pri) (hp : t.s.programs[pri]? = some p)
    (hlimit : (t.s.prog p).checkRunlimit (env 0).utc = true)
    (h : t.step env os = .ok (t', os')) :
    os' = os.kill t.s.self p (t.s.prog p).pid (t.s.prog p).stopSig .limit (env 0).killOk := by
  have hpid : (t.s.prog p).pid ≠ 0 := by
    simp only [Program.checkRunlimit, decide_eq_true_eq] at hlimit
    exact hlimit.1
  have hsend : World.sendSignal ⟨t.s, os⟩ (env 0) p (t.s.prog p).stopSig .limit = _ :=
    if_neg hpid
  have hw : World.handleLimit (env 0) now p ⟨t.s, os⟩ = _ := if_pos hlimit
  simp only [step, hpc, hp, goto, hw] at h
  dsimp only [World.prog] at h
  rw [hsend] at h
  cases h
  rfl

end Thread

namespace Process

open Transition.System

variable {σ₀ σ σ₁ σ' : Process} {l : Label} {pre ls ls₁ ls₂ : List Label} {i : ℕ} {p : ProgPtr}
  {wu : WorkUnit}

/-- The clock of scheduler `i` shows `now` or a later time; `time` returns no negative one, and none
of more than 64 bits. -/
def ClockAfter (i : ℕ) (now : ℤ) (ls : List Label) : Prop :=
  0 ≤ now ∧ ∀ env, .thread i env ∈ ls → now ≤ (env 0).utc ∧ (env 0).utc ≤ 9223372036854775807

/-! ## `<start />` -/

/-- Program `p` can start whenever thread `i` takes a step. -/
def CanStart (i : ℕ) (p : ProgPtr) (σ : Process) (l : Label) (_ : Process) : Prop :=
  ∀ env, l = .thread i env → (env 0).startable ((σ.thread i).s.prog p)

instance (i : ℕ) (p : ProgPtr) (σ σ' : Process) : (l : Label) → Decidable (CanStart i p σ l σ')
  | .thread j env => decidable_of_iff (j = i → (env 0).startable ((σ.thread i).s.prog p)) <| by
    constructor
    · rintro h env' ⟨⟩
      exact h rfl
    · rintro h rfl
      exact h env rfl
  | .dies _ _ => .isTrue nofun
  | .leaves _ => .isTrue nofun
  | .quit _ _ => .isTrue nofun
  | .start _ _ _ => .isTrue nofun
  | .stop _ _ _ => .isTrue nofun
  | .interrupt _ => .isTrue nofun

/-- A start unit that is taken up starts its program. -/
theorem starts_of_takesUp (h : machine.step l σ = .ok σ') (ht : TakesUp i wu σ l σ')
    (hty : wu.wType = .runProg) (hp : wu.program = some p)
    (hpid : ((σ.thread i).s.prog p).pid = 0) (hok : CanStart i p σ l σ') :
    ((σ'.thread i).s.prog p).starts = ((σ.thread i).s.prog p).starts + 1 := by
  obtain ⟨env, now, wui, rfl, hi, hpc, hwu, hdue⟩ := ht
  rcases thread_of_step h i with ⟨env', t, os, he, -, hstep, ht, -⟩ | ⟨hno, -⟩
  case inr => exact absurd (hno env rfl) (by omega)
  cases he
  have hunit := Thread.handleUnit_of_step hpc hwu hstep
  have hstarts : ((σ'.thread i).s.prog p).starts = (World.prog ⟨t.s, os⟩ p).starts := by
    rw [ht]
    rfl
  rw [hstarts]
  generalize (⟨t.s, os⟩ : World) = w at hunit ⊢
  cases World.handles_of_handleUnit hunit with
  | later hnot => exact absurd hdue hnot
  | exit hty' => exact absurd (hty'.symm.trans hty) nofun
  | stop hty' => exact absurd (hty'.symm.trans hty) nofun
  | nostart hty' => exact absurd (hty'.symm.trans hty) nofun
  | run _ _ hp' hrun =>
    obtain rfl := Option.some.inj (hp'.symm.trans hp)
    rcases World.run_cases hrun with ⟨-, hno⟩ | ⟨-, -, hint, w₁, -, hq, rfl⟩
    · exact absurd ⟨hpid, hok env rfl⟩ hno
    · rw [show ((σ.thread i).s.prog _).starts = _ from (hq.starts _).symm]
      simp [World.forked, World.addEvent, World.setRunning, World.markUsed, World.prog,
        World.modifyProg]

theorem Regular.run (hσ : σ.Regular) (h : machine.exec ls σ = .ok σ') :
    σ'.Regular ∧ σ.Frame σ' :=
  exec_invariant (I := fun τ => τ.Regular ∧ σ.Frame τ)
    (fun _ _ _ hτ hl => ⟨hτ.1.step hl, hτ.2.trans (hτ.1.frame_of_step hl)⟩) ⟨hσ, .refl σ⟩ h

/-- What starts and ends of processes keep of a life, a run keeps. -/
theorem Regular.life_of_run {Q : Life → Prop} (hdropped : ∀ l, Q l → Q l.dropped)
    (hended : ∀ now l, Q l → Q (l.ended now)) (hadvanced : ∀ n l, Q l → Q (l.advanced n))
    (hstarted : ∀ pid utc l, Q l → Q (l.started pid utc)) (hσ : σ.Regular)
    (h : machine.exec ls σ = .ok σ') (hi : i < σ.count) (hQ : Q ((σ.thread i).s.prog p).life) :
    Q ((σ'.thread i).s.prog p).life :=
  (exec_invariant (I := fun τ => (τ.Regular ∧ σ.Frame τ) ∧ Q ((τ.thread i).s.prog p).life)
    (fun _ _ _ hτ hl => ⟨⟨hτ.1.1.step hl, hτ.1.2.trans (hτ.1.1.frame_of_step hl)⟩,
      hτ.1.1.life_of_step hdropped hended hadvanced hstarted hl (hτ.1.2.count.symm ▸ hi) hτ.2⟩)
    ⟨⟨hσ, .refl σ⟩, hQ⟩ h).2

theorem Regular.starts_of_run (hσ : σ.Regular) (h : machine.exec ls σ = .ok σ')
    (hi : i < σ.count) (p : ProgPtr) :
    ((σ.thread i).s.prog p).starts ≤ ((σ'.thread i).s.prog p).starts :=
  hσ.life_of_run (Q := fun l => ((σ.thread i).s.prog p).starts ≤ l.starts) (fun _ => id)
    (fun _ _ => id) (fun _ _ => id) (fun _ _ _ hl => hl.trans (Nat.le_succ _)) h hi le_rfl

/-- An idle program stays idle until it is started. -/
theorem Regular.idle_of_run (hσ : σ.Regular) (hi : i < σ.count) (h : machine.exec ls σ = .ok σ')
    (hpid : ((σ.thread i).s.prog p).pid = 0) : ((σ'.thread i).s.prog p).pid = 0 ∨
      ((σ.thread i).s.prog p).starts < ((σ'.thread i).s.prog p).starts := by
  obtain ⟨n, hn⟩ : ∃ n, ((σ.thread i).s.prog p).starts = n := ⟨_, rfl⟩
  have hidle := hσ.life_of_run (p := p)
    (Q := fun l => n ≤ l.starts ∧ (l.pid = 0 ∨ n < l.starts)) ?_ ?_ ?_ ?_ h hi ⟨hn.ge, .inl hpid⟩
  · rw [hn]
    exact hidle.2
  · exact fun l hl => ⟨hl.1, .inl rfl⟩
  · exact fun now l hl => ⟨hl.1, .inl rfl⟩
  · exact fun _ l hl => hl
  · exact fun pid utc l hl => ⟨hl.1.trans (Nat.le_succ _), .inr (Nat.lt_succ_of_le hl.1)⟩

/-- A start unit that is taken up in the run starts its program, if no other start came first. -/
theorem Regular.started_of_sometime (hσ : σ.Regular) (hi : i < σ.count)
    (hpid : ((σ.thread i).s.prog p).pid = 0) (hty : wu.wType = .runProg)
    (hp : wu.program = some p) (hok : machine.Along (CanStart i p) ls σ)
    (h : machine.Sometime (TakesUp i wu) ls σ σ') :
    ((σ.thread i).s.prog p).starts < ((σ'.thread i).s.prog p).starts := by
  obtain ⟨ls₁, l, ls₂, τ, τ', rfl, h₁, hl, h₂, ht⟩ := h
  obtain ⟨hτ, hframe⟩ := hσ.run h₁
  have hiτ : i < τ.count := hframe.count.symm ▸ hi
  have hiτ' : i < τ'.count := (hτ.frame_of_step hl).count.symm ▸ hiτ
  have hbefore := hσ.starts_of_run h₁ hi p
  have hat := hτ.starts_of_step hl hiτ p
  have hafter := (hτ.step hl).starts_of_run h₂ hiτ' p
  rcases hσ.idle_of_run hi h₁ hpid with hzero | hlt
  · have hone := starts_of_takesUp hl ht hty hp hzero (hok.at_step h₁ hl)
    omega
  · omega

/-- A unit that is queued stays so, or is taken up. -/
theorem queued_or_takesUp (h : machine.exec ls σ = .ok σ')
    (hwu : wu ∈ (σ.thread i).s.schedule.units) (hlive : wu.live) :
    wu ∈ (σ'.thread i).s.schedule.units ∨ machine.Sometime (TakesUp i wu) ls σ σ' :=
  invariant_or_sometime (fun _ _ _ hτ hl => queued_of_step hl hτ hlive) hwu h

/-- The unit of an accepted `<start />` or `<stop />` is taken up within so many steps of the thread
of its scheduler, if the scheduler is still in its main loop after them. -/
theorem named_takesUp {name : Str} {now : ℤ} {ty : WType} (h₀ : σ₀.Initial)
    (hpre : machine.exec pre σ₀ = .ok σ) (hi : i < σ₀.count)
    (hp : (σ.thread i).s.getProgramByName name = some p)
    (hadd : ∀ τ, machine.step l τ = .ok (τ.addNamed i ty name now))
    (hty : ty = .runProg ∨ ty = .endProg) (hmade : l ∈ ls₁)
    (h₁ : machine.exec ls₁ σ = .ok σ₁) (h₂ : machine.exec ls₂ σ₁ = .ok σ')
    (hclock : ClockAfter i now (ls₁ ++ ls₂))
    (hin : (σ'.thread i).inLoop)
    (hturns : 2 * (σ₁.thread i).s.schedule.units.length +
      6 * (σ₁.thread i).s.programs.length + 7 + σ₁.os.children.length +
      (σ'.os.forks - σ₁.os.forks) +
      2 * ((σ'.thread i).s.schedule.added.length - (σ₁.thread i).s.schedule.added.length) <
        turns i ls₂) :
    ∃ wu, wu.wType = ty ∧ wu.program = some p ∧
      machine.Sometime (TakesUp i wu) (ls₁ ++ ls₂) σ σ' := by
  obtain ⟨a, b, rfl⟩ := List.append_of_mem hmade
  obtain ⟨τ, hτ, h₁⟩ := exec_append_eq_ok.1 h₁
  obtain ⟨τ', hl, hb⟩ := exec_cons_eq_ok.1 h₁
  have ha : machine.exec (a ++ [l]) σ = .ok τ' := exec_append_eq_ok.2 ⟨τ, hτ, exec_singleton hl⟩
  have hpre' := exec_append_eq_ok.2 ⟨σ, hpre, ha⟩
  obtain ⟨-, hframe⟩ := (regular_run h₀ hpre).run hτ
  rw [← (hframe.scheduler i).getProgramByName] at hp
  -- the unit that the command queues
  obtain ⟨wu, hwu, hwty, hprog, hat⟩ : ∃ wu ∈ (τ'.thread i).s.schedule.units,
      wu.wType = ty ∧ wu.program = some p ∧ wu.tAt = now := by
    obtain rfl := Except.ok.inj ((hadd τ).symm.trans hl)
    unfold addNamed
    rw [hp]
    refine ⟨⟨(τ.thread i).s.schedule.nextAddr, ty, now, some p⟩, ?_, rfl, rfl, rfl⟩
    simp [addWorkunit, put, World.addWorkunit, Schedule.pushBack]
  refine ⟨wu, hwty, hprog, ?_⟩
  have hlive : wu.live := by
    rcases hty with rfl | rfl <;> simp [WorkUnit.live, hwty]
  have htimed : wu.timed := by rwa [WorkUnit.timed, hwty]
  have htaken : machine.Sometime (TakesUp i wu) (b ++ ls₂) τ' σ' := by
    rcases queued_or_takesUp hb hwu hlive with hwu₁ | htaken
    · refine .prepend hb (takesUp_of_turns h₀
        (exec_append_eq_ok.2 ⟨τ', hpre', hb⟩) hi hwu₁ hlive ?_ h₂ hin hturns)
      refine along_of_forall (fun l hl _ _ => ?_) _
      rintro env rfl -
      obtain ⟨hle, hmax⟩ := hclock.2 env (List.mem_append_right _ hl)
      have hnow := hclock.1
      rw [WorkUnit.due_iff_of_timed htimed]
      exact (WorkUnit.delta_right_iff (by omega) (by omega)).2 (by omega) |>.2 (by omega)
    · exact htaken.extend h₂
  simpa using htaken.prepend ha

/-- An accepted `<start />` for a program that does not run gets it started, within so many steps of
the thread of its scheduler, unless the scheduler leaves its main loop. -/
theorem start_command {cfg : Config} {h : Host} {peer cmd text : Str} {key : Option OtpKey}
    {x : XMLNode} (h₀ : σ₀.Initial) (hpre : machine.exec pre σ₀ = .ok σ) (hi : i < σ₀.count)
    (ha : cfg.Accepts h peer cmd key text x) (hallowed : cfg.cmdAllowed x.name)
    (hname : x.name = str "start")
    (hp : (σ.thread i).s.getProgramByName (x.nameAttribute []) = some p)
    (hpid : ((σ.thread i).s.prog p).pid = 0)
    (hmade : (Session.message cfg h peer cmd (Session.accepted σ)).CarriedOut h.now (· ∈ ls₁))
    (h₁ : machine.exec ls₁ σ = .ok σ₁) (h₂ : machine.exec ls₂ σ₁ = .ok σ')
    (hok : machine.Along (CanStart i p) (ls₁ ++ ls₂) σ)
    (hclock : ClockAfter i h.now (ls₁ ++ ls₂))
    (hturns : 2 * (σ₁.thread i).s.schedule.units.length +
      6 * (σ₁.thread i).s.programs.length + 7 + σ₁.os.children.length +
      (σ'.os.forks - σ₁.os.forks) +
      2 * ((σ'.thread i).s.schedule.added.length - (σ₁.thread i).s.schedule.added.length) <
        turns i ls₂) :
    ((σ.thread i).s.prog p).starts < ((σ'.thread i).s.prog p).starts ∨
      (σ'.thread i).inLoop = false := by
  by_cases hin : (σ'.thread i).inLoop
  case neg => exact .inr (eq_false_of_ne_true hin)
  have hiσ : i < σ.count := (h₀.count_of_run hpre).symm ▸ hi
  have hact : (Act.start i (x.nameAttribute []), text) ∈
      (Session.message cfg h peer cmd (Session.accepted σ)).acts :=
    Session.mem_message_acts.2 ⟨key, x, ha, hallowed, hname, hiσ, rfl, by simp [hp]⟩
  obtain ⟨wu, hty, hprog, htaken⟩ := named_takesUp h₀ hpre hi hp (fun _ => rfl) (.inl rfl)
    (hmade _ hact _ (List.mem_singleton_self _)) h₁ h₂ hclock hin hturns
  exact .inl ((regular_run h₀ hpre).started_of_sometime hiσ hpid hty hprog hok htaken)

/-- `<start name="sleeper" />`. -/
def startSleeper : Str × XMLNode :=
  (str "<start name=\"sleeper\" />",
    { name := str "start", attributes := [(str "name", str "sleeper")] })

/-- The program `sleeper`, without a `<init>` that starts it. -/
def waiting : Process := .configured [{ SchedulerConfig.sleeper with init := [] }]

theorem start_command_sleeper : ∃ σ₁ σ',
    machine.exec [.start 0 (str "sleeper") 0] waiting = .ok σ₁ ∧
    machine.exec (List.replicate 20 (.thread 0 fun _ => {})) σ₁ = .ok σ' ∧
    (((waiting.thread 0).s.prog 0).starts < ((σ'.thread 0).s.prog 0).starts ∨
      (σ'.thread 0).inLoop = false) := by
  obtain ⟨σ₁, σ', h₁, h₂, hturns⟩ : ∃ σ₁ σ',
      machine.exec [.start 0 (str "sleeper") 0] waiting = .ok σ₁ ∧
      machine.exec (List.replicate 20 (.thread 0 fun _ => {})) σ₁ = .ok σ' ∧
      2 * (σ₁.thread 0).s.schedule.units.length + 6 * (σ₁.thread 0).s.programs.length + 7 +
        σ₁.os.children.length + (σ'.os.forks - σ₁.os.forks) +
        2 * ((σ'.thread 0).s.schedule.added.length - (σ₁.thread 0).s.schedule.added.length) <
        turns 0 (List.replicate 20 (.thread 0 fun _ => {})) :=
    ⟨_, _, rfl, rfl, by decide⟩
  have h₀ : waiting.Initial :=
    configured_initial (List.forall_mem_singleton.2 ⟨by simp [SchedulerConfig.sleeper], by simp⟩)
  have hpre : machine.exec [] waiting = .ok waiting := rfl
  have hparse : (Host.knowing [startSleeper]).parse startSleeper.1 =
      .ok { startSleeper.2 with nodeType := .leaf } := rfl
  have hacts : (Session.message Session.localOnly (.knowing [startSleeper]) Session.localhost
      startSleeper.1 (.accepted waiting)).acts = [(.start 0 (str "sleeper"), startSleeper.1)] := rfl
  refine ⟨σ₁, σ', h₁, h₂, start_command h₀ hpre (by decide)
    (Session.accepts_plain hparse (by decide)) (by decide) rfl rfl rfl
    (Session.carriedOut_of_acts hacts fun _ => id) h₁ h₂ (by decide)
      ⟨le_rfl, fun env hl => ?_⟩ hturns⟩
  rcases List.mem_cons.1 hl with hstart | hl
  · cases hstart
  · cases List.eq_of_mem_replicate hl
    decide

/-! ## `<stop />` -/

/-- `kill` is called with process `pid` of program `p` and its stop signal, or a dead child is found
to be that program. -/
def Stops (i : ℕ) (p : ProgPtr) (pid : ℤ) (σ : Process) (l : Label) (σ' : Process) : Prop :=
  ∃ env, l = .thread i env ∧
    ((∃ cause, σ'.os =
      σ.os.kill i p pid ((σ.thread i).s.prog p).stopSig cause (env 0).killOk) ∨
    ∃ c, (σ.thread i).reaps (env 0) σ.os = some c ∧ (σ.thread i).s.running c.pid = some p)

/-- A process that runs goes on, or is stopped, or found dead. -/
theorem Regular.pid_or_stops {pid : ℤ} (hσ : σ.Regular) (hi : i < σ.count)
    (h : machine.step l σ = .ok σ') (hpid : ((σ.thread i).s.prog p).pid = pid) (hne : pid ≠ 0) :
    ((σ'.thread i).s.prog p).pid = pid ∨ Stops i p pid σ l σ' := by
  rcases hσ.deed h hi with ⟨env, rfl, hstep, hdeed⟩ | ⟨-, hs⟩
  · cases hdeed with
    | idle _ hs => exact .inl ((hs.pid p).trans hpid)
    | signal _ hs => exact .inl ((hs.pid p).trans hpid)
    | @expire now pri q sig hpc hq hlimit ht =>
      by_cases hqp : p = q
      · subst hqp
        right
        refine ⟨env, rfl, .inl ⟨.limit, ?_⟩⟩
        rw [Thread.os_of_limit hpc hq hlimit hstep, hσ.self i hi, hpid]
      · exact .inl ((congrArg Life.pid (ht.other p hqp)).trans hpid)
    | @start q _ hs =>
      obtain ⟨hint, ht⟩ := hs.turns
      have hqp : p ≠ q := by
        rintro rfl
        exact hne (hpid.symm.trans hs.pid)
      exact .inl ((congrArg Life.pid (ht.other p hqp)).trans hpid)
    | @death now pri pid' c q w₁ w₂ hpc hreap hq hlen hbury hagain hw =>
      by_cases hqp : p = q
      · subst hqp
        exact .inr ⟨env, rfl, .inr ⟨c, hreap, hq⟩⟩
      · left
        have hprog : (σ'.thread i).s.prog p = w₂.prog p := congrArg (fun w => w.s.prog p) hw
        have hlife := (hagain.other hqp).trans (hbury.other p hqp)
        rw [hprog]
        exact (congrArg Life.pid hlife).trans hpid
    | @bury c q hloop hreap hq ht =>
      by_cases hqp : p = q
      · subst hqp
        exact .inr ⟨env, rfl, .inr ⟨c, hreap, hq⟩⟩
      · exact .inl ((congrArg Life.pid (ht.other p hqp)).trans hpid)
    | stray _ _ hs => exact .inl ((hs.pid p).trans hpid)
  · exact .inl ((hs.pid p).trans hpid)

/-- A stop unit that is taken up stops its program. -/
theorem stops_of_takesUp {pid : ℤ} (hself : (σ.thread i).s.self = i)
    (h : machine.step l σ = .ok σ') (ht : TakesUp i wu σ l σ') (hty : wu.wType = .endProg)
    (hp : wu.program = some p) (hpid : ((σ.thread i).s.prog p).pid = pid) (hne : pid ≠ 0) :
    Stops i p pid σ l σ' := by
  obtain ⟨env, now, wui, rfl, hi, hpc, hwu, hdue⟩ := ht
  rcases thread_of_step h i with ⟨env', t, os, he, -, hstep, ht, hos⟩ | ⟨hno, -⟩
  case inr => exact absurd (hno env rfl) (by omega)
  cases he
  have hunit := Thread.handleUnit_of_step hpc hwu hstep
  refine ⟨env, rfl, .inl ⟨.endProg, ?_⟩⟩
  rw [hos, show os = (⟨t.s, os⟩ : World).os from rfl]
  generalize (⟨t.s, os⟩ : World) = w at hunit ⊢
  cases World.handles_of_handleUnit hunit with
  | later hnot => exact absurd hdue hnot
  | exit hty' => exact absurd (hty'.symm.trans hty) nofun
  | run hty' => exact absurd (hty'.symm.trans hty) nofun
  | nostart hty' => exact absurd (hty'.symm.trans hty) nofun
  | @stop q w₁ _ _ hp' hw =>
    obtain rfl := Option.some.inj (hp'.symm.trans hp)
    have hpid₁ : (w₁.prog q).pid = pid := by
      rw [hw]
      simpa [World.prog, World.addEvent, World.modifyProg] using hpid
    have hsend : w₁.sendSignal (env 0) q (w₁.prog q).stopSig .endProg = _ :=
      if_neg (hpid₁.symm ▸ hne)
    rw [hsend, hpid₁, hw]
    simp [World.markUsed, World.prog, World.addEvent, World.modifyProg, hself]

/-- An accepted `<stop />` for a program that runs gets its process the stop signal, or the process
is found dead before, within so many steps of the thread of its scheduler, unless the scheduler
leaves its main loop; up to then the program keeps its process. -/
theorem stop_command {cfg : Config} {h : Host} {peer cmd text : Str} {key : Option OtpKey}
    {x : XMLNode} {pid : ℤ} (h₀ : σ₀.Initial) (hpre : machine.exec pre σ₀ = .ok σ)
    (hi : i < σ₀.count) (ha : cfg.Accepts h peer cmd key text x) (hallowed : cfg.cmdAllowed x.name)
    (hname : x.name = str "stop")
    (hp : (σ.thread i).s.getProgramByName (x.nameAttribute []) = some p)
    (hpid : ((σ.thread i).s.prog p).pid = pid) (hne : pid ≠ 0)
    (hmade : (Session.message cfg h peer cmd (Session.accepted σ)).CarriedOut h.now (· ∈ ls₁))
    (h₁ : machine.exec ls₁ σ = .ok σ₁) (h₂ : machine.exec ls₂ σ₁ = .ok σ')
    (hclock : ClockAfter i h.now (ls₁ ++ ls₂))
    (hturns : 2 * (σ₁.thread i).s.schedule.units.length +
      6 * (σ₁.thread i).s.programs.length + 7 + σ₁.os.children.length +
      (σ'.os.forks - σ₁.os.forks) +
      2 * ((σ'.thread i).s.schedule.added.length - (σ₁.thread i).s.schedule.added.length) <
        turns i ls₂) :
    machine.Until (fun ρ => ((ρ.thread i).s.prog p).pid = pid) (Stops i p pid) (ls₁ ++ ls₂) σ σ' ∨
      (σ'.thread i).inLoop = false := by
  by_cases hin : (σ'.thread i).inLoop
  case neg => exact .inr (eq_false_of_ne_true hin)
  left
  have hσ := regular_run h₀ hpre
  have hiσ : i < σ.count := (h₀.count_of_run hpre).symm ▸ hi
  have hact : (Act.stop i (x.nameAttribute []), text) ∈
      (Session.message cfg h peer cmd (Session.accepted σ)).acts :=
    Session.mem_message_acts.2 ⟨key, x, ha, hallowed, hname, hiσ, rfl, by simp [hp]⟩
  obtain ⟨wu, hty, hprog, htaken⟩ := named_takesUp h₀ hpre hi hp (fun _ => rfl) (.inr rfl)
    (hmade _ hact _ (List.mem_singleton_self _)) h₁ h₂ hclock hin hturns
  refine htaken.until (I := fun ρ : Process => (ρ.Regular ∧ σ.Frame ρ) ∧
    ((ρ.thread i).s.prog p).pid = pid) (fun _ hρ => hρ.2) (fun l ρ ρ' hρ hl => ?_)
    (fun l ρ ρ' hρ hl ht => ?_) ⟨⟨hσ, .refl σ⟩, hpid⟩
  · refine (hρ.1.1.pid_or_stops (hρ.1.2.count.symm ▸ hiσ) hl hρ.2 hne).imp (fun hpid' => ?_) id
    exact ⟨⟨hρ.1.1.step hl, hρ.1.2.trans (hρ.1.1.frame_of_step hl)⟩, hpid'⟩
  · exact stops_of_takesUp (hρ.1.1.self i (hρ.1.2.count.symm ▸ hiσ)) hl ht hty hprog hρ.2 hne

/-- `<stop name="sleeper" />`. -/
def stopSleeper : Str × XMLNode :=
  (str "<stop name=\"sleeper\" />",
    { name := str "stop", attributes := [(str "name", str "sleeper")] })

theorem stop_command_sleeper : ∃ σ σ₁ σ',
    machine.exec (List.replicate 3 (.thread 0 fun _ => {})) (.configured [.sleeper]) = .ok σ ∧
    machine.exec [.stop 0 (str "sleeper") 0] σ = .ok σ₁ ∧
    machine.exec (List.replicate 30 (.thread 0 fun _ => {})) σ₁ = .ok σ' ∧
    (machine.Until (fun ρ => ((ρ.thread 0).s.prog 0).pid = 1) (Stops 0 0 1)
      ([.stop 0 (str "sleeper") 0] ++ List.replicate 30 (.thread 0 fun _ => {})) σ σ' ∨
      (σ'.thread 0).inLoop = false) := by
  obtain ⟨σ, σ₁, σ', hpre, hname, hpid, hacts, h₁, h₂, hturns⟩ : ∃ σ σ₁ σ',
      machine.exec (List.replicate 3 (.thread 0 fun _ => {})) (.configured [.sleeper]) = .ok σ ∧
      (σ.thread 0).s.getProgramByName (str "sleeper") = some 0 ∧
      ((σ.thread 0).s.prog 0).pid = 1 ∧
      (Session.message Session.localOnly (.knowing [stopSleeper]) Session.localhost
        stopSleeper.1 (.accepted σ)).acts = [(.stop 0 (str "sleeper"), stopSleeper.1)] ∧
      machine.exec [.stop 0 (str "sleeper") 0] σ = .ok σ₁ ∧
      machine.exec (List.replicate 30 (.thread 0 fun _ => {})) σ₁ = .ok σ' ∧
      2 * (σ₁.thread 0).s.schedule.units.length + 6 * (σ₁.thread 0).s.programs.length + 7 +
        σ₁.os.children.length + (σ'.os.forks - σ₁.os.forks) +
        2 * ((σ'.thread 0).s.schedule.added.length - (σ₁.thread 0).s.schedule.added.length) <
        turns 0 (List.replicate 30 (.thread 0 fun _ => {})) :=
    ⟨_, _, _, rfl, rfl, rfl, rfl, rfl, rfl, by decide⟩
  have hparse : (Host.knowing [stopSleeper]).parse stopSleeper.1 =
      .ok { stopSleeper.2 with nodeType := .leaf } := rfl
  refine ⟨σ, σ₁, σ', hpre, h₁, h₂, stop_command sleeper_initial hpre (by decide)
    (Session.accepts_plain hparse (by decide)) (by decide) rfl hname hpid (by decide)
    (Session.carriedOut_of_acts hacts fun _ => id) h₁ h₂ ⟨le_rfl, fun env hl => ?_⟩ hturns⟩
  rcases List.mem_cons.1 hl with hstop | hl
  · cases hstop
  · cases List.eq_of_mem_replicate hl
    decide

end Process

/-! ## `<quit />` -/

namespace Daemon

open Transition.System

variable {σ₀ σ σ' : Daemon} {l : DaemonLabel} {ls : List DaemonLabel} {i : ℕ}

/-- The scheduler that is told to quit is on its way to return. -/
theorem doomed_of_quit {now : ℤ} (h : daemon.step (.other (.quit i now)) σ = .ok σ') :
    σ'.pc = .returned ∨ (σ'.process.thread i).Doomed := by
  by_cases hpc : σ.pc = .returned
  · exact .inl (ended_of_step hpc h)
  · right
    rw [step_other hpc] at h
    cases h
    refine .inr (.inr ⟨⟨(σ.process.thread i).s.schedule.nextAddr, .exit, now, none⟩, ?_, rfl⟩)
    simp [Process.addWorkunit, Process.put, World.addWorkunit, Schedule.pushBack]

/-- It stays so. -/
theorem doomed_of_run (hloop : σ.pc.looping) (h : daemon.exec ls σ = .ok σ')
    (hd : σ.pc = .returned ∨ (σ.process.thread i).Doomed) :
    σ'.pc = .returned ∨ (σ'.process.thread i).Doomed :=
  (exec_invariant (I := fun τ : Daemon =>
      τ.pc.looping ∧ (τ.pc = .returned ∨ (τ.process.thread i).Doomed))
    (fun _ _ _ hτ hl => ⟨looping_of_step hτ.1 hl,
      hτ.2.imp (ended_of_step · hl) (doomed_of_step hτ.1 hl)⟩) ⟨hloop, hd⟩ h).2

/-- An accepted `<quit />` ends PETeR: every scheduler gets its `WT_EXIT` unit, the threads come to
their ends, and `main` ends after them, unless a thread was lost on the way. -/
theorem quit_command_iff {cfg : Config} {h : Host} {peer cmd text : Str} {key : Option OtpKey}
    {x : XMLNode} {pre ls₁ ls₂ ls₃ : List DaemonLabel} {σ₁ σ₂ σ₃ : Daemon} (h₀ : σ₀.Initial)
    (hpre : daemon.exec pre σ₀ = .ok σ) (hloop : σ.pc.looping)
    (ha : cfg.Accepts h peer cmd key text x) (hallowed : cfg.cmdAllowed x.name)
    (hname : x.name = str "quit")
    (hmade : (Session.message cfg h peer cmd (Session.accepted σ.process)).CarriedOut h.now
      (.other · ∈ ls₁))
    (h₁ : daemon.exec ls₁ σ = .ok σ₁) (h₂ : daemon.exec ls₂ σ₁ = .ok σ₂)
    (hthreads : ∀ i < σ.process.count, σ₁.stepsLeft σ₂ i < turns i ls₂)
    (h₃ : daemon.exec ls₃ σ₂ = .ok σ₃) (hlast : 4 * σ.process.count + 8 < calls ls₃) :
    σ₃.pc = .returned ↔ daemon.Along LosesNone (pre ++ ls₁ ++ ls₂) σ₀ := by
  have hσ := h₀.settled_of_run hpre
  have hpre₁ : daemon.exec (pre ++ ls₁) σ₀ = .ok σ₁ := exec_append_eq_ok.2 ⟨σ, hpre, h₁⟩
  obtain ⟨hcount, hloop₁⟩ := looping_of_run hσ hloop h₁
  have hdoomed : ∀ i < σ.process.count, σ₁.pc = .returned ∨ (σ₁.process.thread i).Doomed := by
    intro i hi
    have hact : (Act.quit i, text) ∈
        (Session.message cfg h peer cmd (Session.accepted σ.process)).acts :=
      Session.mem_message_acts.2 ⟨key, x, ha, hallowed, .inl ⟨hname, hi⟩⟩
    obtain ⟨a, b, rfl⟩ := List.append_of_mem (hmade _ hact _ (List.mem_singleton_self _))
    obtain ⟨τ, hτ, h₁⟩ := exec_append_eq_ok.1 h₁
    obtain ⟨τ', hl, hb⟩ := exec_cons_eq_ok.1 h₁
    have hloop' := looping_of_step (looping_of_run hσ hloop hτ).2 hl
    exact doomed_of_run hloop' hb (doomed_of_quit hl)
  rw [← hcount] at hthreads hlast hdoomed
  refine ends_iff_of_doomed h₀ hpre₁ hloop₁ ?_ h₂ hthreads h₃ hlast
  by_cases hend : σ₁.pc = .returned
  · exact .inl hend
  · exact .inr fun i hi => (hdoomed i hi).resolve_left hend

/-- The scheduler leaves its main loop, and its program dies of the stop signal. -/
def quitting : List DaemonLabel :=
  List.replicate 13 (.other (.thread 0 fun _ => {})) ++ [.other (.dies 1 15)] ++
    List.replicate 3 (.other (.thread 0 fun _ => {}))

/-- The thread runs on for longer than it takes. -/
def quittingForLong : List DaemonLabel :=
  quitting ++ List.replicate 40000 (.other (.thread 0 fun _ => {}))

theorem quit_command_iff_dozing : ∃ σ σ₁ σ₂ σ₃, daemon.exec launching dozing = .ok σ ∧
    daemon.exec [.other (.quit 0 0)] σ = .ok σ₁ ∧ daemon.exec quittingForLong σ₁ = .ok σ₂ ∧
    daemon.exec (List.replicate 13 (.main {})) σ₂ = .ok σ₃ ∧ σ₃.pc = .returned ∧
    daemon.Along LosesNone (launching ++ [.other (.quit 0 0)] ++ quittingForLong) dozing := by
  obtain ⟨σ, σ₁, σ₂, σ₃, hpre, hloop, hcount, h₁, h₂, hone, hover, hleft, h₃, hpc, hacts⟩ :
      ∃ σ σ₁ σ₂ σ₃, daemon.exec launching dozing = .ok σ ∧ σ.pc.looping ∧ σ.process.count = 1 ∧
      daemon.exec [.other (.quit 0 0)] σ = .ok σ₁ ∧ daemon.exec quitting σ₁ = .ok σ₂ ∧
      0 < σ₂.process.count ∧ (σ₂.process.thread 0).pc = .returned ∧
      σ₁.stepsLeft σ₂ 0 < 40000 ∧ daemon.exec (List.replicate 13 (.main {})) σ₂ = .ok σ₃ ∧
      σ₃.pc = .returned ∧
      (Session.message Session.localOnly (.knowing [Session.plainQuit]) Session.localhost
        Session.plainQuit.1 (.accepted σ.process)).acts = [(.quit 0, Session.plainQuit.1)] :=
    ⟨_, _, _, _, rfl, rfl, rfl, rfl, rfl, by decide, rfl, by decide, rfl, rfl, rfl⟩
  have h₂' : daemon.exec quittingForLong σ₁ = .ok σ₂ := by
    refine exec_append_eq_ok.2 ⟨σ₂, h₂, ?_⟩
    exact exec_replicate_eq_ok (step_of_over hone hover _) 40000
  have hturns : 40000 ≤ turns 0 quittingForLong := by
    rw [turns, quittingForLong, List.countP_append, List.countP_replicate]
    exact Nat.le_add_left _ _
  have hparse : (Host.knowing [Session.plainQuit]).parse Session.plainQuit.1 =
      .ok { Session.plainQuit.2 with nodeType := .leaf } := rfl
  refine ⟨σ, σ₁, σ₂, σ₃, hpre, h₁, h₂', h₃, hpc, ?_⟩
  refine (quit_command_iff dozing_initial hpre hloop (Session.accepts_plain hparse (by decide))
    (by decide) rfl (Session.carriedOut_of_acts hacts fun l hl => ?_) h₁ h₂' (fun i hi => ?_)
    h₃ ?_).1 hpc
  · rw [List.mem_singleton.1 hl]
    exact List.mem_singleton_self _
  · obtain rfl : i = 0 := by omega
    exact hleft.trans_le hturns
  · rw [hcount]
    decide

end Daemon

end Peter
