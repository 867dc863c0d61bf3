import Peter.Control
import Peter.Exits
import Peter.Lib.Amortized
import Peter.Shutdown

/-!
# The end of a scheduler

Once a scheduler has left its main loop its thread returns within a number of its own steps that
depends on the number of its programs alone (`shutdown_bounded`): the wait loops count their tries
down, whatever the children do.  Before that, a scheduler that is off or has a `WT_EXIT` unit
queued finishes its pass first.  Such a pass may reap processes that it starts again and again, and
may find new units in the schedule; apart from processes started and units queued in the meantime,
the steps are bounded too (`exit_ends`).
-/

namespace Peter

/-! ## Children and forks -/

/-- A `fork`. -/
def Obs.isFork : Obs → Bool
  | .fork _ _ _ _ => true
  | _ => false

/-- How many processes were started, by any scheduler. -/
def OS.forks (os : OS) : ℕ := os.trace.countP Obs.isFork

/-- How many children an entry takes away. -/
def Entry.reaped : Entry → ℕ
  | .bury _ _ _ _ => 1
  | .lose _ _ => 1
  | _ => 0

theorem length_reap {os : OS} {c : Child} (hc : c ∈ os.children) (i : ℕ) (p : Option ProgPtr)
    (slot : ℤ) : 1 + (os.reap i c p slot).children.length ≤ os.children.length := by
  have hlt : (os.children.filter fun d => decide (d.pid ≠ c.pid)).length < os.children.length :=
    List.length_filter_lt_length_iff_exists.2 ⟨c, hc, by simp⟩
  exact (Nat.add_comm 1 _).trans_le hlt

/-- Children that are taken away were started before. -/
theorem step_children {e : Entry} {b b' : Books} (h : supervisor.step e b = .ok b') :
    e.reaped + b'.os.children.length + b.os.forks ≤ b.os.children.length + b'.os.forks := by
  have hforks : b'.os.forks = b.os.forks + (e.obs b).countP Obs.isFork := by
    rw [OS.forks, step_trace h, List.countP_append, OS.forks]
  have hsame : e.reaped = 0 → b'.os.children.length = b.os.children.length →
      e.reaped + b'.os.children.length + b.os.forks ≤ b.os.children.length + b'.os.forks := by
    omega
  cases e with
  | fork k hint t =>
    obtain ⟨-, rfl⟩ := step_fork.1 h
    have hlen : (b.fork k hint t).os.children.length = b.os.children.length + 1 :=
      List.length_append
    have hone : ((Entry.fork k hint t).obs b).countP Obs.isFork = 1 := rfl
    have hzero : (Entry.fork k hint t).reaped = 0 := rfl
    omega
  | enter k => cases h; exact hsame rfl rfl
  | signal k sig cause ok =>
    obtain ⟨-, rfl⟩ := step_signal.1 h
    exact hsame rfl (List.length_map _)
  | expire k sig ok =>
    obtain ⟨-, rfl⟩ := step_expire.1 h
    exact hsame rfl (List.length_map _)
  | bury i c p ev =>
    obtain ⟨⟨hc, -⟩, rfl⟩ := step_bury.1 h
    have hlen : 1 + (b.bury i c p ev).os.children.length ≤ b.os.children.length :=
      length_reap hc i (some p) (b.slot (i, p))
    have hone : (Entry.bury i c p ev).reaped = 1 := rfl
    omega
  | lose i c =>
    obtain ⟨⟨hc, -⟩, rfl⟩ := step_lose.1 h
    have hlen : 1 + (b.lose i c).os.children.length ≤ b.os.children.length :=
      length_reap hc i none 0
    have hone : (Entry.lose i c).reaped = 1 := rfl
    omega
  | dies pid status => cases h; exact hsame rfl (List.length_map _)
  | leaves pid => cases h; exact hsame rfl (List.length_map _)

theorem exec_children {es : List Entry} {b b' : Books} (h : supervisor.exec es b = .ok b') :
    (es.map Entry.reaped).sum + b'.os.children.length + b.os.forks ≤
      b.os.children.length + b'.os.forks := by
  have hall := Transition.System.exec_amortized Entry.reaped
    (fun b : Books => b.os.children.length) (fun b : Books => b.os.forks)
    (I := fun _ => True) (D := fun _ => False)
    (fun _ _ _ _ _ => trivial) (fun _ _ _ _ _ => id)
    (fun _ _ _ _ hl _ _ => step_children hl) trivial h
  exact hall.resolve_left id

/-- A step that is given a child takes one away. -/
theorem Thread.Shape.reaped {t : Thread} {os : OS} {e : Env} {i : ℕ} {es : List Entry}
    (h : t.Shape i e os es) :
    (if (t.reaps e os).isSome then 1 else 0) ≤ (es.map Entry.reaped).sum := by
  cases h with
  | quiet hc => simp [hc.reaps]
  | start hat => simp [hat.reaps]
  | refused hat => simp [hat.reaps]
  | signal hc => simp [hc.reaps]
  | expire hc => simp [hc.reaps]
  | death hreap => simp [hreap, Entry.reaped]
  | restart hreap => simp [hreap, Entry.reaped]
  | stray hreap => simp [hreap, Entry.reaped]

/-! ## What is left of a thread -/

namespace Schedule

variable {sch sch' : Schedule}

/-- An append is recorded. -/
theorem Grows.length_added (h : sch.Grows sch') :
    sch'.units.length + sch.added.length = sch.units.length + sch'.added.length := by
  induction h with
  | refl => rfl
  | @push sch' ty t p _ hty ih =>
    simp only [Schedule.pushBack, List.length_append, List.length_singleton]
    omega

theorem Grows.units_subset (h : sch.Grows sch') : sch.units ⊆ sch'.units := by
  obtain ⟨-, -, l, hunits, -⟩ := h.appended
  rw [hunits]
  exact List.subset_append_left _ _

end Schedule

def WorkUnit.isExit (wu : WorkUnit) : Bool := wu.wType = .exit

instance (now : ℤ) : DecidablePred (WorkUnit.Due now)
  | ⟨_, .exit, _, _⟩ => .isTrue trivial
  | ⟨_, .nostart, _, _⟩ => .isTrue trivial
  | ⟨_, .runProg, tAt, _⟩ => inferInstanceAs (Decidable (toLong (tAt - now) ≤ 0))
  | ⟨_, .endProg, tAt, _⟩ => inferInstanceAs (Decidable (toLong (tAt - now) ≤ 0))
  | ⟨_, .notinit, _, _⟩ => .isFalse id
  | ⟨_, .waitPid, _, _⟩ => .isFalse id

namespace Thread

/-- The steps of a thread to its return, in the shutdown; in the main loop, from the end of the
loop. -/
def shutdownLeft (n : ℕ) : Pc → ℕ
  | .waiting tries _ _ => tries.toNat * (n + 2) + n + 1003
  | .waitFor tries _ _ pri => (n - pri) + 1 + (tries.toNat * (n + 2) + n + 1003)
  | .killing pi _ => (n - pi) + 1002
  | .reaping tries _ _ => tries.toNat + 1
  | .ending pi _ => (n - pi) + 1 + (10000 * (n + 2) + n + 1003)
  | .returned => 0
  | _ => n + 2 + (10000 * (n + 2) + n + 1003)

variable {t t' : Thread} {os os' : OS} {env : ℕ → Env}

theorem shutdownLeft_pos {pc : Pc} (h : pc ≠ .returned) (n : ℕ) : 1 ≤ shutdownLeft n pc := by
  cases pc
  case returned => exact absurd rfl h
  all_goals
    simp only [shutdownLeft]
    omega

/-- Another round of a wait loop. -/
theorem toNat_mul_eq {tries : ℤ} (h : tries > 0) (m : ℕ) :
    tries.toNat * m = (tries - 1).toNat * m + m := by
  have hsucc : tries.toNat = (tries - 1).toNat + 1 := by omega
  rw [hsucc, Nat.succ_mul]

theorem Jump.shutdownLeft {pc : Pc} (h : t.Jump pc) (hloop : t.inLoop = false)
    (hpc : t.pc ≠ .returned) : 1 + shutdownLeft t.s.programs.length pc ≤
      Thread.shutdownLeft t.s.programs.length t.pc := by
  cases h with
  | limited hpc' => simp [Thread.inLoop, hpc'] at hloop
  | poll hpc' => simp [Thread.inLoop, hpc'] at hloop
  | again hpc' => simp [Thread.inLoop, hpc'] at hloop
  | @idle pi _ _ hpc' hp =>
    obtain ⟨hlt, -⟩ := List.getElem?_eq_some_iff.mp hp
    simp only [hpc', Thread.shutdownLeft]
    omega
  | wait hpc' hwait =>
    have hround := toNat_mul_eq hwait.1 (t.s.programs.length + 2)
    simp only [hpc', Thread.shutdownLeft]
    omega
  | sigkill hpc' =>
    simp only [hpc', Thread.shutdownLeft]
    omega
  | waited hpc' hp =>
    have hle := List.getElem?_eq_none_iff.mp hp
    simp only [hpc', Thread.shutdownLeft]
    omega
  | @dead pi _ _ hpc' hp =>
    obtain ⟨hlt, -⟩ := List.getElem?_eq_some_iff.mp hp
    simp only [hpc', Thread.shutdownLeft]
    omega
  | killed hpc' hp =>
    have hle := List.getElem?_eq_none_iff.mp hp
    simp only [hpc', Thread.shutdownLeft]
    omega
  | returned hpc' => exact absurd hpc' hpc

theorem Waits.shutdownLeft {child zero echild pc : Pc} (h : t.Waits child zero echild)
    (hpc : pc = child ∨ pc = zero ∨ pc = echild) :
    1 + shutdownLeft t.s.programs.length pc ≤ Thread.shutdownLeft t.s.programs.length t.pc := by
  cases h with
  | waitFor hpc' hp =>
    obtain ⟨hlt, -⟩ := List.getElem?_eq_some_iff.mp hp
    rcases hpc with rfl | rfl | rfl <;>
      · simp only [hpc', Thread.shutdownLeft]
        omega
  | reaping hpc' hwait =>
    rcases hpc with rfl | rfl | rfl <;>
      · simp only [hpc', Thread.shutdownLeft]
        omega

/-- In the shutdown every step counts down. -/
theorem shutdownLeft_of_step (h : t.step env os = .ok (t', os')) (hloop : t.inLoop = false)
    (hpc : t.pc ≠ .returned) : 1 + shutdownLeft t.s.programs.length t'.pc ≤
      shutdownLeft t.s.programs.length t.pc := by
  have hpos := shutdownLeft_pos hpc t.s.programs.length
  obtain ⟨pc, w, hm, rfl, rfl⟩ := step_moves h
  cases hm with
  | jump hj => exact hj.shutdownLeft hloop hpc
  | leave hpc' => simp [inLoop, hpc'] at hloop
  | enter hpc' => simp [inLoop, hpc'] at hloop
  | unit hpc' => simp [inLoop, hpc'] at hloop
  | erase hpc' => simp [inLoop, hpc'] at hloop
  | limit hpc' => simp [inLoop, hpc'] at hloop
  | death hpc' => simp [inLoop, hpc'] at hloop
  | alive hpc' => simp [inLoop, hpc'] at hloop
  | stray => exact hpos
  | bury hwait => exact hwait.shutdownLeft (.inl rfl)
  | nobody hwait hreap hpc' => exact hwait.shutdownLeft (.inr hpc')
  | stop hpc' hp =>
    obtain ⟨hlt, -⟩ := List.getElem?_eq_some_iff.mp hp
    simp only [hpc', shutdownLeft]
    omega
  | stopped hpc' hp =>
    have hle := List.getElem?_eq_none_iff.mp hp
    have htries : (10000 : ℤ).toNat = 10000 := rfl
    simp only [hpc', shutdownLeft, htries]
    omega
  | kill hpc' hp =>
    obtain ⟨hlt, -⟩ := List.getElem?_eq_some_iff.mp hp
    simp only [hpc', shutdownLeft]
    omega
  | finish => exact hpos

/-- Every step of the shutdown is defined. -/
theorem step_of_not_inLoop (hloop : t.inLoop = false) (env : ℕ → Env) (os : OS) :
    ∃ t' os', t.step env os = .ok (t', os') := by
  have hgoto : ∀ (pc : Pc) (w : World), ∃ t' os', t.goto pc w = .ok (t', os') :=
    fun pc w => ⟨_, _, rfl⟩
  have hwait : ∀ (pid : ℤ) (child zero echild : Pc),
      ∃ t' os', t.stepWait (env 0) os pid child zero echild = .ok (t', os') := by
    intro pid child zero echild
    unfold stepWait
    rcases World.wait_cases ⟨t.s, os⟩ (env 0) pid with
      ⟨c, p, hc, hp, he⟩ | ⟨c, hc, hp, he⟩ | ⟨hc, he | he⟩
    · rw [he]
      exact hgoto ..
    · rw [he]
      exact hgoto ..
    · rw [he]
      exact hgoto ..
    · rw [he]
      exact hgoto ..
  unfold step
  cases hpc : t.pc <;> simp only [inLoop, hpc, Bool.true_eq_false] at hloop ⊢
  case ending pi pCount =>
    cases t.s.programs[pi]? with
    | none => exact hgoto ..
    | some p =>
      dsimp only
      split_ifs
      all_goals exact hgoto ..
  case waiting =>
    split_ifs
    · exact hgoto ..
    · exact hgoto ..
    · exact hgoto ..
  case waitFor tries pCount kCount pri =>
    cases t.s.programs[pri]? with
    | none => exact hgoto ..
    | some p => exact hwait ..
  case killing pi pCount =>
    cases t.s.programs[pi]? with
    | none => exact hgoto ..
    | some p =>
      dsimp only
      split_ifs
      all_goals exact hgoto ..
  case reaping =>
    split_ifs
    · exact hwait ..
    · exact hgoto ..
  case returned => exact hgoto ..

/-! ## What is left of a pass -/

/-- A unit with property `P` is still to be taken up in the first pass the thread is in. -/
def ahead (P : WorkUnit → Bool) (t : Thread) : Bool := match t.pc with
  | .firstPass now wui =>
    (t.s.schedule.units.drop wui.pos).any fun wu => P wu ∧ wu.Due now
  | _ => false

/-- The steps of a thread to the end of its pass, without the children it reaps. -/
def toLoop (t : Thread) : ℕ := match t.pc with
  | .firstPass _ wui => (t.s.schedule.units.length - wui.pos) + (3 * t.s.programs.length + 3)
  | .limits _ pri => (t.s.programs.length - pri) + (2 * t.s.programs.length + 2)
  | .deaths _ pri => 2 * (t.s.programs.length - pri) + 1
  | .poll _ pri _ => 2 * (t.s.programs.length - (pri + 1)) + 2
  | _ => 0

/-- The steps of the pass after that, when the thread has to make one to take such a unit up. -/
def nextPass (P : WorkUnit → Bool) (t : Thread) : ℕ :=
  if t.inLoop = false ∨ t.s.mode = .off ∨ t.ahead P then 0
  else t.s.schedule.units.length + (3 * t.s.programs.length + 4)

/-- The steps of a thread to its return, when the unit turns it off. -/
def left (P : WorkUnit → Bool) (t : Thread) : ℕ :=
  t.toLoop + t.nextPass P + shutdownLeft t.s.programs.length t.pc

/-- The thread has left its main loop or is off, or such a unit is queued that a pass which begins
now takes up. -/
def Awaits (P : WorkUnit → Bool) (now : ℤ) (t : Thread) : Prop :=
  t.inLoop = false ∨ t.s.mode = .off ∨
    ∃ wu ∈ t.s.schedule.units, P wu ∧ (t.pc = .loop → wu.Due now)

/-- The thread is on its way to return. -/
def Doomed (t : Thread) : Prop :=
  t.inLoop = false ∨ t.s.mode = .off ∨ ∃ wu ∈ t.s.schedule.units, wu.wType = .exit

variable {P : WorkUnit → Bool}

theorem Doomed.awaits (h : t.Doomed) (now : ℤ) : t.Awaits WorkUnit.isExit now := by
  refine h.imp id (Or.imp id ?_)
  rintro ⟨wu, hwu, hty⟩
  exact ⟨wu, hwu, decide_eq_true hty, fun _ => by simp [WorkUnit.Due, hty]⟩

theorem left_of_not_inLoop (h : t.inLoop = false) :
    t.left P = shutdownLeft t.s.programs.length t.pc := by
  have hloop : t.toLoop = 0 := by
    cases hpc : t.pc <;> simp_all [inLoop, toLoop]
  rw [left, hloop, nextPass, if_pos (.inl h)]
  omega

theorem nextPass_of_off (h : t.s.mode = .off) : t.nextPass P = 0 := if_pos (.inr (.inl h))

theorem nextPass_of_ahead (h : t.ahead P) : t.nextPass P = 0 := if_pos (.inr (.inr h))

theorem nextPass_le (P : WorkUnit → Bool) (t : Thread) :
    t.nextPass P ≤ t.s.schedule.units.length + (3 * t.s.programs.length + 4) := by
  unfold nextPass
  split_ifs
  · exact Nat.zero_le _
  · exact le_rfl

/-- The pass after this one is not put off, but may become longer. -/
theorem nextPass_mono (hloop : t.inLoop) (hmode : t'.s.mode = t.s.mode)
    (hahead : t.ahead P → t'.ahead P) (hprog : t'.s.programs = t.s.programs) {k : ℕ}
    (hunits : t'.s.schedule.units.length ≤ t.s.schedule.units.length + k) :
    t'.nextPass P ≤ t.nextPass P + k := by
  by_cases hoff : t.s.mode = .off
  · rw [nextPass_of_off (hmode.trans hoff)]
    exact Nat.zero_le _
  by_cases hexit : t.ahead P
  · rw [nextPass_of_ahead (hahead hexit)]
    exact Nat.zero_le _
  have hle := t'.nextPass_le P
  have hnext : t.nextPass P = t.s.schedule.units.length + (3 * t.s.programs.length + 4) := by
    rw [nextPass, if_neg]
    rintro (h | h | h)
    · exact absurd (h.symm.trans hloop) Bool.false_ne_true
    · exact hoff h
    · exact hexit h
  rw [hprog] at hle
  omega

/-- A unit that is queued costs two steps at most, one in this pass and one in the next. -/
theorem left_pushBack {wu : WorkUnit} (hpc : t'.pc = t.pc)
    (hs : t'.s = { t.s with schedule := t.s.schedule.pushBack wu }) : t'.left P ≤ t.left P + 2 := by
  have hunits : t'.s.schedule.units = t.s.schedule.units ++ [wu] := by
    rw [hs]
    rfl
  have hlen : t'.s.schedule.units.length = t.s.schedule.units.length + 1 := by
    rw [hunits, List.length_append, List.length_singleton]
  have hmode : t'.s.mode = t.s.mode := by rw [hs]
  have hprog : t'.s.programs = t.s.programs := by rw [hs]
  by_cases hin : t.inLoop
  · have hloop : t'.toLoop ≤ t.toLoop + 1 := by
      unfold toLoop
      cases hpc₀ : t.pc <;> simp only [hpc, hpc₀, hlen, hprog] <;> omega
    have hahead : t.ahead P → t'.ahead P := by
      unfold ahead
      rw [hpc]
      cases t.pc
      case firstPass now wui =>
        intro h
        dsimp only at h ⊢
        rw [hunits, List.drop_append, List.any_append, h, Bool.true_or]
      all_goals exact id
    have hnext := nextPass_mono hin hmode hahead hprog hlen.le
    rw [left, left, hpc, hprog]
    omega
  · rw [Bool.not_eq_true] at hin
    have hin' : t'.inLoop = false := by
      rw [inLoop, hpc]
      exact hin
    rw [left_of_not_inLoop hin, left_of_not_inLoop hin', hpc, hprog]
    exact Nat.le_add_right _ 2

/-- Turning the scheduler off costs nothing. -/
theorem left_off (hpc : t'.pc = t.pc) (hsch : t'.s.schedule = t.s.schedule)
    (hprog : t'.s.programs = t.s.programs)
    (hmode : t'.s.mode = t.s.mode ∨ t'.s.mode = .off) : t'.left P ≤ t.left P := by
  have hloop : t'.toLoop = t.toLoop := by
    unfold toLoop
    rw [hpc, hsch, hprog]
  have hnext : t'.nextPass P ≤ t.nextPass P := by
    rcases hmode with hmode | hoff
    · unfold nextPass inLoop ahead
      rw [hpc, hsch, hprog, hmode]
    · rw [nextPass_of_off hoff]
      exact Nat.zero_le _
  rw [left, left, hloop, hpc, hprog]
  omega

/-- The thread goes on in the pass, behind the first pass over the schedule. -/
theorem left_grow {k : ℕ} (hin : t.inLoop) (hin' : t'.inLoop) (hmode : t'.s.mode = t.s.mode)
    (hm : t.marking = none) (hprog : t'.s.programs = t.s.programs)
    (hgrow : t.s.schedule.Grows t'.s.schedule) (hloop : 1 + t'.toLoop ≤ t.toLoop + k) :
    1 + t'.left P + 2 * t.s.schedule.added.length ≤
      t.left P + 2 * t'.s.schedule.added.length + k := by
  have hlen := hgrow.length_added
  obtain ⟨-, -, l, hunits, -⟩ := hgrow.appended
  have hunits : t'.s.schedule.units.length = t.s.schedule.units.length + l.length := by
    rw [hunits, List.length_append]
  have hahead : t.ahead P → t'.ahead P := by
    intro h
    unfold ahead at h
    unfold marking at hm
    cases hpc : t.pc <;> simp [hpc] at h hm
  have hnext := nextPass_mono hin hmode hahead hprog hunits.le
  have hshut : ∀ {t : Thread}, t.inLoop → shutdownLeft t.s.programs.length t.pc =
      t.s.programs.length + 2 + (10000 * (t.s.programs.length + 2) + t.s.programs.length + 1003) := by
    intro t ht
    cases hpc : t.pc <;> simp [inLoop, hpc] at ht <;> rfl
  rw [left, left, hshut hin, hshut hin', hprog]
  omega

/-- The first pass leaves the other units alone; what is appended is recorded. -/
theorem units_of_handleUnit {now : ℤ} {pos : ℕ} {wu : WorkUnit} {w w' : World} {e : Env}
    (hw : World.handleUnit e now pos wu w = .ok w') :
    (∀ k ≠ pos, ∀ x, w.s.schedule.units[k]? = some x → w'.s.schedule.units[k]? = some x) ∧
      ∃ n, w'.s.schedule.units.length = w.s.schedule.units.length + n ∧
        w'.s.schedule.added.length = w.s.schedule.added.length + n := by
  have hset : ∀ (l : List WorkUnit) (y : WorkUnit), ∀ k ≠ pos, ∀ x : WorkUnit,
      l[k]? = some x → (l.set pos y)[k]? = some x := by
    intro l y k hk x hx
    rw [List.getElem?_set_ne hk.symm]
    exact hx
  rcases World.handleUnit_schedule hw with ⟨-, hsch⟩ | ⟨-, -, hsch⟩ | ⟨-, -, hsch⟩
  · rw [hsch]
    exact ⟨fun _ _ _ h => h, 0, rfl, rfl⟩
  · rw [hsch]
    exact ⟨hset _ _, 0, List.length_set .., rfl⟩
  · rw [hsch]
    refine ⟨fun k hk x hx => hset _ _ k hk x ?_, 1, ?_, List.length_append⟩
    · obtain ⟨hlt, -⟩ := List.getElem?_eq_some_iff.mp hx
      simp only [Schedule.pushBack]
      rw [List.getElem?_append_left hlt]
      exact hx
    · simp [Schedule.markUsed, Schedule.pushBack]

/-- Nothing is taken from the record of the units. -/
theorem added_of_step (h : t.step env os = .ok (t', os')) :
    t.s.schedule.added.length ≤ t'.s.schedule.added.length := by
  cases step_turn h with
  | enter _ _ _ hs => rw [hs]
  | skip _ _ _ _ _ hs => rw [hs]
  | mark _ _ _ _ hs =>
    rw [hs.2.2]
    exact le_rfl
  | queue _ _ _ _ hs =>
    rw [hs.2.2]
    simp [Schedule.markUsed, Schedule.pushBack]
  | erase _ _ _ _ hs => rw [hs]
  | grow _ _ _ hs =>
    have hlen := hs.length_added
    obtain ⟨-, -, l, hunits, -⟩ := hs.appended
    rw [hunits, List.length_append] at hlen
    omega

theorem Jump.toLoop {pc : Pc} (h : t.Jump pc) (hin : t.inLoop) :
    1 + Thread.toLoop { t with pc } ≤ t.toLoop := by
  cases h with
  | limited hpc hp =>
    simp only [Thread.toLoop, hpc]
    omega
  | poll hpc hp =>
    obtain ⟨hlt, -⟩ := List.getElem?_eq_some_iff.mp hp
    simp only [Thread.toLoop, hpc]
    omega
  | again hpc =>
    simp only [Thread.toLoop, hpc]
    omega
  | idle hpc => simp [Thread.inLoop, hpc] at hin
  | wait hpc => simp [Thread.inLoop, hpc] at hin
  | sigkill hpc => simp [Thread.inLoop, hpc] at hin
  | waited hpc => simp [Thread.inLoop, hpc] at hin
  | dead hpc => simp [Thread.inLoop, hpc] at hin
  | killed hpc => simp [Thread.inLoop, hpc] at hin
  | returned hpc => simp [Thread.inLoop, hpc] at hin

theorem ahead_of_handleUnit {now : ℤ} {wui : Iter} {wu : WorkUnit} {w : World} {e : Env}
    (hpc : t.pc = .firstPass now wui) (hwu : t.s.schedule.units[wui.pos]? = some wu)
    (hnot : ¬(P wu ∧ wu.Due now)) (hw : World.handleUnit e now wui.pos wu ⟨t.s, os⟩ = .ok w)
    (hahead : t.ahead P) :
    ahead P { t with s := w.s, pc := .firstPass now { wui with pos := wui.pos + 1 } } := by
  obtain ⟨hlt, hget⟩ := List.getElem?_eq_some_iff.mp hwu
  simp only [ahead, hpc, List.drop_eq_getElem_cons hlt, hget, List.any_cons, hnot,
    decide_false, Bool.false_or, List.any_eq_true, decide_eq_true_eq] at hahead
  obtain ⟨x, hx, hxP⟩ := hahead
  obtain ⟨k, hk⟩ := List.mem_iff_getElem?.mp hx
  rw [List.getElem?_drop] at hk
  have hk' := (units_of_handleUnit hw).1 (wui.pos + 1 + k) (by omega) x hk
  rw [← List.getElem?_drop] at hk'
  simp only [ahead, List.any_eq_true, decide_eq_true_eq]
  exact ⟨x, List.mem_of_getElem? hk', hxP⟩

/-- The first pass takes up a unit. -/
theorem left_of_handleUnit {now : ℤ} {wui : Iter} {wu : WorkUnit} {w : World} {e : Env}
    (hpc : t.pc = .firstPass now wui) (hwu : t.s.schedule.units[wui.pos]? = some wu)
    (hw : World.handleUnit e now wui.pos wu ⟨t.s, os⟩ = .ok w)
    (hstop : P wu → wu.Due now → w.s.mode = .off) (hprog : w.s.programs = t.s.programs) :
    1 + left P { t with s := w.s, pc := .firstPass now { wui with pos := wui.pos + 1 } } +
      2 * t.s.schedule.added.length ≤ t.left P + 2 * w.s.schedule.added.length := by
  obtain ⟨hlt, -⟩ := List.getElem?_eq_some_iff.mp hwu
  obtain ⟨-, n, hunits, hadded⟩ := units_of_handleUnit hw
  have hmode := (World.control_of_handleUnit hw).2
  have hnext : nextPass P { t with s := w.s, pc := .firstPass now { wui with pos := wui.pos + 1 } } ≤
      t.nextPass P + n := by
    by_cases hoff : w.s.mode = .off
    · rw [nextPass_of_off hoff]
      exact Nat.zero_le _
    · have hty : wu.wType ≠ .exit := fun hty => hoff (hmode.trans (if_pos hty))
      rw [if_neg hty] at hmode
      have hnot : ¬(P wu ∧ wu.Due now) := fun h => hoff (hstop h.1 h.2)
      exact nextPass_mono (by simp [inLoop, hpc]) hmode (ahead_of_handleUnit hpc hwu hnot hw)
        hprog hunits.le
  simp only [left, toLoop, hpc, shutdownLeft, hunits, hprog, hadded]
  omega

/-- The next pass takes the unit up. -/
theorem left_of_enter {now : ℤ} {capacity : ℕ} (hpc : t.pc = .loop) (hmode : t.s.mode ≠ .off)
    (hd : t.Awaits P now) (hpc' : t'.pc = .firstPass now ⟨0, capacity⟩)
    (hprog : t'.s.programs = t.s.programs)
    (hsch : t'.s.schedule = { t.s.schedule with passStart := t.s.schedule.units }) :
    1 + t'.left P + 2 * t.s.schedule.added.length ≤
      t.left P + 2 * t'.s.schedule.added.length := by
  obtain ⟨x, hx, hP, hdue⟩ : ∃ wu ∈ t.s.schedule.units, P wu ∧ (t.pc = .loop → wu.Due now) := by
    rcases hd with hin | hoff | hqueued
    · simp [inLoop, hpc] at hin
    · exact absurd hoff hmode
    · exact hqueued
  have hnext : t'.nextPass P = 0 := by
    apply nextPass_of_ahead
    simp only [ahead, hpc', hsch, List.drop_zero, List.any_eq_true, decide_eq_true_eq]
    exact ⟨x, hx, hP, hdue hpc⟩
  have hnow : t.nextPass P = t.s.schedule.units.length + (3 * t.s.programs.length + 4) := by
    rw [nextPass, if_neg]
    simp [inLoop, hpc, hmode, ahead]
  simp only [left, hnext, hnow, toLoop, hpc, hpc', hprog, hsch, shutdownLeft]
  omega

theorem left_of_erase {now : ℤ} {wui : Iter} (hpc : t.pc = .firstPass now wui)
    (hwu : t.s.schedule.units[wui.pos]? = none) (hpc' : t'.pc = .limits now 0)
    (hmode : t'.s.mode = t.s.mode) (hprog : t'.s.programs = t.s.programs)
    (hsch : t'.s.schedule =
      { t.s.schedule with units := Schedule.eraseUsed t.s.schedule.units }) :
    1 + t'.left P + 2 * t.s.schedule.added.length ≤ t.left P + 2 * t'.s.schedule.added.length := by
  have hend := List.getElem?_eq_none_iff.mp hwu
  have hle : t'.s.schedule.units.length ≤ t.s.schedule.units.length + 0 := by
    rw [hsch, Schedule.eraseUsed_eq_filter]
    exact List.length_filter_le ..
  have hahead : t.ahead P = false := by
    simp [ahead, hpc, List.drop_eq_nil_of_le hend]
  have hnext := nextPass_mono (P := P) (by simp [inLoop, hpc]) hmode (by simp [hahead]) hprog hle
  have hadded : t'.s.schedule.added = t.s.schedule.added := by rw [hsch]
  simp only [left, toLoop, hpc, hpc', hprog, hadded, shutdownLeft]
  omega

/-- What a step costs a thread that awaits a unit which turns it off. -/
theorem left_of_step (h : t.step env os = .ok (t', os')) (hd : t.Awaits P (env 0).utc)
    (hstop : ∀ now wui wu, t.pc = .firstPass now wui → t.s.schedule.units[wui.pos]? = some wu →
      P wu → wu.Due now → t'.s.mode = .off)
    (hpc : t.pc ≠ .returned) (hprog : t'.s.programs = t.s.programs) :
    1 + t'.left P + 2 * t.s.schedule.added.length ≤
      t.left P + 2 * t'.s.schedule.added.length +
        if (t.reaps (env 0) os).isSome then 1 else 0 := by
  by_cases hin : t.inLoop
  case neg =>
    have hin' : t'.inLoop = false := by
      rw [← Bool.not_eq_true]
      exact fun h' => hin (inLoop_of_step h h')
    rw [Bool.not_eq_true] at hin
    have hcount := shutdownLeft_of_step h hin hpc
    have hadded := added_of_step h
    rw [left_of_not_inLoop hin, left_of_not_inLoop hin', hprog]
    omega
  obtain ⟨pc, w, hm, rfl, rfl⟩ := step_moves h
  cases hm with
  | jump hj =>
    have hgo : 1 + toLoop { t with pc } ≤ t.toLoop + 0 := hj.toLoop hin
    have hin' := hj.inLoop.trans hin
    exact Nat.le_add_right_of_le
      (left_grow hin hin' rfl (marking_eq_none hj.not_firstPass) rfl .refl hgo)
  | leave hpc hoff =>
    simp only [left, toLoop, hpc, World.setStatus, shutdownLeft, nextPass, inLoop, true_or, if_true]
    omega
  | enter hpc =>
    have hmode : t.s.mode ≠ .off := by
      intro hoff
      simp [step, hpc, hoff, goto] at h
    exact Nat.le_add_right_of_le (left_of_enter hpc hmode hd rfl rfl rfl)
  | unit hpc hwu hw =>
    exact Nat.le_add_right_of_le (left_of_handleUnit hpc hwu hw (hstop _ _ _ hpc hwu) hprog)
  | erase hpc hwu => exact Nat.le_add_right_of_le (left_of_erase hpc hwu rfl rfl rfl rfl)
  | limit hpc hp =>
    obtain ⟨hlt, -⟩ := List.getElem?_eq_some_iff.mp hp
    obtain ⟨hmode, -⟩ := World.steady_handleLimit ⟨t.s, os⟩ (env 0) _ _
    refine Nat.le_add_right_of_le (left_grow (k := 0) hin rfl hmode (by simp [marking, hpc]) hprog
      (.of_eq (World.handleLimit_schedule ..)) ?_)
    simp only [toLoop, hpc] at hprog ⊢
    rw [hprog]
    omega
  | death hpc hreap hp hw =>
    obtain ⟨hmode, -⟩ := World.steady_handleDeath hw
    rw [hreap]
    refine left_grow hin rfl hmode (by simp [marking, hpc]) hprog (World.handleDeath_grows hw) ?_
    simp only [toLoop, hpc, Option.isSome_some, if_true] at hprog ⊢
    rw [hprog]
    omega
  | alive hpc hreap =>
    refine Nat.le_add_right_of_le
      (left_grow (k := 0) hin rfl rfl (by simp [marking, hpc]) rfl .refl ?_)
    simp only [toLoop, hpc]
    omega
  | stray hreap hp =>
    rw [hreap, left_of_not_inLoop rfl]
    have hpos := shutdownLeft_pos hpc t.s.programs.length
    simp only [shutdownLeft, left, Option.isSome_some, if_true]
    omega
  | bury hwait => exact absurd (hwait.inLoop.symm.trans hin) Bool.false_ne_true
  | nobody hwait => exact absurd (hwait.inLoop.symm.trans hin) Bool.false_ne_true
  | stop hpc => simp [inLoop, hpc] at hin
  | stopped hpc => simp [inLoop, hpc] at hin
  | kill hpc => simp [inLoop, hpc] at hin
  | finish hfin => exact absurd ((inLoop_of_finishing hfin).symm.trans hin) Bool.false_ne_true

/-- The first pass takes up the unit it is at. -/
theorem firstPass_of_step {now : ℤ} {wui : Iter} {wu : WorkUnit}
    (h : t.step env os = .ok (t', os')) (hpc : t.pc = .firstPass now wui)
    (hwu : t.s.schedule.units[wui.pos]? = some wu) :
    ∃ w, World.handleUnit (env 0) now wui.pos wu ⟨t.s, os⟩ = .ok w ∧ t'.s = w.s := by
  rw [step, hpc] at h
  dsimp only at h
  unfold stepFirstPass at h
  split_ifs at h
  rw [hwu] at h
  dsimp only at h
  unfold gotoAfter goto at h
  split at h
  case h_2 => cases h
  next w hw =>
  cases h
  exact ⟨w, hw, rfl⟩

theorem off_of_step {now : ℤ} {wui : Iter} {wu : WorkUnit} (h : t.step env os = .ok (t', os'))
    (hpc : t.pc = .firstPass now wui) (hwu : t.s.schedule.units[wui.pos]? = some wu)
    (hty : wu.wType = .exit) : t'.s.mode = .off := by
  obtain ⟨w, hw, hs⟩ := firstPass_of_step h hpc hwu
  rw [hs, (World.control_of_handleUnit hw).2, if_pos hty]

theorem firstPass_of_marking {now : ℤ} {wui : Iter} (hm : t.marking = some (now, wui)) :
    t.pc = .firstPass now wui := by
  unfold marking at hm
  cases hpc : t.pc <;> simp_all

/-- A unit stays queued until the first pass takes it up. -/
theorem queued_of_step {x : WorkUnit} (h : t.step env os = .ok (t', os'))
    (hx : x ∈ t.s.schedule.units) (hlive : x.live) : x ∈ t'.s.schedule.units ∨
      ∃ now wui, t.pc = .firstPass now wui ∧ t.s.schedule.units[wui.pos]? = some x ∧
        x.Due now := by
  have hmark : ∀ {now : ℤ} {wui : Iter} {wu : WorkUnit}, t.marking = some (now, wui) →
      t.s.schedule.units[wui.pos]? = some wu → x ∈ t'.s.schedule.units ∨
        ∃ now wui, t.pc = .firstPass now wui ∧ t.s.schedule.units[wui.pos]? = some x ∧
          x.Due now := by
    intro now wui wu hm hwu
    have hpc := firstPass_of_marking hm
    obtain ⟨w, hw, hs⟩ := firstPass_of_step h hpc hwu
    by_cases hdue : x = wu ∧ x.Due now
    · exact .inr ⟨now, wui, hpc, hdue.1 ▸ hwu, hdue.2⟩
    · left
      rw [hs]
      obtain ⟨k, hk⟩ := List.mem_iff_getElem?.mp hx
      by_cases hpos : k = wui.pos
      · obtain rfl : wu = x := Option.some.inj (hwu.symm.trans (hpos ▸ hk))
        rcases World.handleUnit_schedule hw with ⟨-, hsch⟩ | ⟨hdue', -⟩ | ⟨hdue', -⟩
        · rw [hsch]
          exact hx
        · exact absurd ⟨rfl, hdue'⟩ hdue
        · exact absurd ⟨rfl, hdue'⟩ hdue
      · exact List.mem_of_getElem? ((units_of_handleUnit hw).1 k hpos x hk)
  cases step_turn h with
  | enter _ _ _ hs =>
    rw [hs]
    exact .inl hx
  | skip hm _ _ hwu => exact hmark hm hwu
  | mark hm _ _ _ hs => exact hmark hm hs.1
  | queue hm _ _ _ hs => exact hmark hm hs.1
  | erase _ _ _ _ hs =>
    rw [hs, Schedule.eraseUsed_eq_filter, List.mem_filter]
    exact .inl ⟨hx, hlive⟩
  | grow _ _ _ hs => exact .inl (hs.units_subset hx)

/-- A doomed thread stays so. -/
theorem doomed_of_step (h : t.step env os = .ok (t', os')) (hd : t.Doomed) : t'.Doomed := by
  rcases hd with hin | hoff | hexit
  · left
    rw [← Bool.not_eq_true] at hin ⊢
    exact fun h' => hin (inLoop_of_step h h')
  · exact .inr (.inl (mode_of_step h hoff))
  · obtain ⟨x, hx, hty⟩ := hexit
    right
    rcases queued_of_step h hx (by simp [WorkUnit.live, hty]) with hx' | ⟨now, wui, hpc, hwu, -⟩
    · exact .inr ⟨x, hx', hty⟩
    · exact .inl (off_of_step h hpc hwu hty)

/-- The tries a wait loop has left are no more than it began with. -/
def TriesLeft (t : Thread) : Prop := match t.pc with
  | .waiting tries _ _ => tries ≤ 10000
  | .waitFor tries _ _ _ => tries ≤ 9999
  | .reaping tries _ _ => tries ≤ 1000
  | _ => True

theorem Jump.triesLeft {pc : Pc} (h : t.Jump pc) (ht : t.TriesLeft) :
    Thread.TriesLeft { t with pc } := by
  cases h with
  | wait hpc =>
    simp only [Thread.TriesLeft, hpc] at ht ⊢
    omega
  | waited hpc =>
    simp only [Thread.TriesLeft, hpc] at ht ⊢
    omega
  | killed => exact le_rfl (a := (1000 : ℤ))
  | limited => trivial
  | poll => trivial
  | again => trivial
  | idle => trivial
  | sigkill => trivial
  | dead => trivial
  | returned => trivial

theorem Waits.triesLeft {child zero echild pc : Pc} {s : Scheduler}
    (h : t.Waits child zero echild) (ht : t.TriesLeft) (hpc : pc = child ∨ pc = zero ∨ pc = echild) :
    Thread.TriesLeft { t with s, pc } := by
  cases h with
  | waitFor hpc' =>
    simp only [Thread.TriesLeft, hpc'] at ht
    rcases hpc with rfl | rfl | rfl <;> exact ht
  | reaping hpc' =>
    simp only [Thread.TriesLeft, hpc'] at ht
    have hless := Int.le_sub_one_of_lt (Int.lt_add_one_of_le ht)
    rcases hpc with rfl | rfl | rfl <;>
      · simp only [Thread.TriesLeft]
        omega

theorem triesLeft_of_step (h : t.step env os = .ok (t', os')) (ht : t.TriesLeft) :
    t'.TriesLeft := by
  obtain ⟨pc, w, hm, rfl, rfl⟩ := step_moves h
  cases hm with
  | jump hj => exact hj.triesLeft ht
  | bury hwait => exact hwait.triesLeft ht (.inl rfl)
  | nobody hwait _ hpc => exact hwait.triesLeft ht (.inr hpc)
  | stopped => exact le_rfl (a := (10000 : ℤ))
  | leave => trivial
  | enter => trivial
  | unit => trivial
  | erase => trivial
  | limit => trivial
  | death => trivial
  | alive => trivial
  | stray => trivial
  | stop => trivial
  | kill => trivial
  | finish => trivial

theorem shutdownLeft_le (hloop : t.inLoop = false) (ht : t.TriesLeft) :
    shutdownLeft t.s.programs.length t.pc ≤ 10002 * t.s.programs.length + 21004 := by
  have hrounds : ∀ {tries : ℤ} {k : ℕ}, tries ≤ k → tries.toNat * (t.s.programs.length + 2) ≤
      k * (t.s.programs.length + 2) :=
    fun h => Nat.mul_le_mul_right _ (Int.toNat_le.2 h)
  cases hpc : t.pc <;> simp only [inLoop, hpc, Bool.true_eq_false] at hloop <;>
    simp only [TriesLeft, hpc] at ht <;> simp only [shutdownLeft]
  case waiting tries _ _ =>
    have := hrounds (k := 10000) ht
    omega
  case waitFor tries _ _ _ =>
    have := hrounds (k := 9999) ht
    omega
  all_goals omega

theorem left_le (P : WorkUnit → Bool) (ht : t.TriesLeft) : t.left P ≤
    2 * t.s.schedule.units.length + 10008 * t.s.programs.length + 21012 := by
  by_cases hin : t.inLoop
  · have hnext := t.nextPass_le P
    rw [left]
    cases hpc : t.pc <;> simp only [inLoop, hpc, Bool.false_eq_true] at hin <;>
      simp only [toLoop, hpc, shutdownLeft] <;> omega
  · rw [Bool.not_eq_true] at hin
    have hle := shutdownLeft_le hin ht
    rw [left_of_not_inLoop hin]
    omega

end Thread

/-! ## Runs -/

/-- The label is a step of thread `i`. -/
def Label.own (i : ℕ) : Label → Bool
  | .thread j _ => j = i
  | _ => false

theorem Label.own_eq_false {l : Label} {i : ℕ} (h : ∀ env, l ≠ .thread i env) :
    l.own i = false := by
  cases l
  case thread j env =>
    refine decide_eq_false fun hj => ?_
    exact h env (hj ▸ rfl)
  all_goals rfl

namespace Process

open Transition.System

variable {σ σ' : Process} {l : Label} {ls : List Label} {i : ℕ}

/-- A command is paid for by the unit it queues. -/
theorem left_of_command {P : WorkUnit → Bool} {queues : Prop} {t : Thread} {s : Scheduler}
    (h : t.s.Command queues s) : Thread.left P { t with s } + 2 * t.s.schedule.added.length ≤
      t.left P + 2 * s.schedule.added.length := by
  cases h with
  | none => exact le_rfl
  | off =>
    refine Nat.add_le_add_right ?_ _
    exact Thread.left_off rfl rfl rfl (.inr rfl)
  | unit =>
    refine le_trans (Nat.add_le_add_right (m := t.left P + 2) ?_ _) ?_
    · exact Thread.left_pushBack rfl rfl
    · simp only [Schedule.pushBack, List.length_append, List.length_singleton]
      omega

theorem doomed_of_step (h : machine.step l σ = .ok σ') (hd : (σ.thread i).Doomed) :
    (σ'.thread i).Doomed := by
  rcases thread_of_step h i with ⟨env, t, os, -, -, hstep, rfl, -⟩ | ⟨-, s, hs, hthread⟩
  · exact Thread.doomed_of_step hstep hd
  · rw [hthread]
    cases hs with
    | none => exact hd
    | off => exact .inr (.inl rfl)
    | unit =>
      refine hd.imp id (Or.imp id ?_)
      rintro ⟨wu, hwu, hty⟩
      exact ⟨wu, List.mem_append_left _ hwu, hty⟩

theorem returned_of_step (h : machine.step l σ = .ok σ') (hpc : (σ.thread i).pc = .returned) :
    (σ'.thread i).pc = .returned := by
  rcases thread_of_step h i with ⟨env, t, os, -, -, hstep, rfl, -⟩ | ⟨-, s, hs, hthread⟩
  · obtain ⟨ht, -⟩ := Thread.returned_of_step hstep hpc
    rw [ht]
    exact hpc
  · rw [hthread]
    exact hpc

theorem step_of_returned (hi : i < σ.count) (hpc : (σ.thread i).pc = .returned)
    (env : ℕ → Env) : machine.step (.thread i env) σ = .ok σ := by
  have hstep : (σ.thread i).step env σ.os = .ok (σ.thread i, σ.os) := by
    unfold Thread.step
    rw [hpc]
    exact congrArg (fun pc => Except.ok ({ σ.thread i with pc }, σ.os)) hpc.symm
  rw [step_thread hi hstep, put, Function.update_eq_self]

theorem triesLeft_of_step (h : machine.step l σ = .ok σ') (ht : (σ.thread i).TriesLeft) :
    (σ'.thread i).TriesLeft := by
  rcases thread_of_step h i with ⟨env, t, os, -, -, hstep, rfl, -⟩ | ⟨-, s, hs, hthread⟩
  · exact Thread.triesLeft_of_step hstep ht
  · rw [hthread]
    exact ht

theorem Initial.triesLeft (h : σ.Initial) (i : ℕ) : (σ.thread i).TriesLeft := by
  unfold Thread.TriesLeft
  rw [h.pc i]
  trivial

theorem Initial.triesLeft_of_run (h₀ : σ.Initial) (h : machine.exec ls σ = .ok σ') (i : ℕ) :
    (σ'.thread i).TriesLeft :=
  exec_invariant (fun _ _ _ ht h => triesLeft_of_step h ht) (h₀.triesLeft i) h

/-- A potential of thread `i` that pays for its steps, except those that reap a child, and for the
units it is sent, pays for all its steps together with the children: they were started before. -/
theorem Regular.pays_of_step {f : Thread → ℕ} (hσ : σ.Regular) (h : machine.step l σ = .ok σ')
    (hi : i < σ.count)
    (hown : ∀ env os, l = .thread i env → (σ.thread i).step env σ.os = .ok (σ'.thread i, os) →
      (σ'.thread i).s.programs = (σ.thread i).s.programs →
      1 + f (σ'.thread i) + 2 * (σ.thread i).s.schedule.added.length ≤
        f (σ.thread i) + 2 * (σ'.thread i).s.schedule.added.length +
          if ((σ.thread i).reaps (env 0) σ.os).isSome then 1 else 0)
    (hcommand : ∀ s, (σ.thread i).s.Command (σ.Commands i l) s →
      f { σ.thread i with s } + 2 * (σ.thread i).s.schedule.added.length ≤
        f (σ.thread i) + 2 * s.schedule.added.length) :
    (if l.own i then 1 else 0) + (f (σ'.thread i) + σ'.os.children.length) +
        (σ.os.forks + 2 * (σ.thread i).s.schedule.added.length) ≤
      f (σ.thread i) + σ.os.children.length +
        (σ'.os.forks + 2 * (σ'.thread i).s.schedule.added.length) := by
  obtain ⟨hf, es, hes, hexec⟩ := step_entries hσ.self h
  have hchildren : (es.map Entry.reaped).sum + σ'.os.children.length + σ.os.forks ≤
    σ.os.children.length + σ'.os.forks := exec_children hexec
  rcases thread_of_step h i with ⟨env, t, os, rfl, -, hstep, rfl, -⟩ | ⟨hno, s, hs, hthread⟩
  · have hpays := hown env os rfl hstep (hf.scheduler i).programs
    have hreaped : (if ((σ.thread i).reaps (env 0) σ.os).isSome then 1 else 0) ≤
        (es.map Entry.reaped).sum := by
      cases hes with
      | thread _ hs => exact hs.reaped
      | quiet hl => exact absurd (hl i env rfl) (by omega)
    have hturn : (if (Label.thread i env).own i then 1 else 0) = 1 := by simp [Label.own]
    omega
  · have hpays := hcommand s hs
    dsimp only at hpays
    rw [Label.own_eq_false fun env he => absurd (hno env he) (by omega), hthread]
    simp only [Bool.false_eq_true, if_false]
    omega

/-- What a step costs a thread that awaits a unit which turns it off. -/
theorem Regular.left_of_step {P : WorkUnit → Bool} (hσ : σ.Regular)
    (h : machine.step l σ = .ok σ') (hi : i < σ.count)
    (hd : ∀ env, l = .thread i env → (σ.thread i).Awaits P (env 0).utc)
    (hstop : ∀ env, l = .thread i env → ∀ now wui wu, (σ.thread i).pc = .firstPass now wui →
      (σ.thread i).s.schedule.units[wui.pos]? = some wu → P wu → wu.Due now →
        (σ'.thread i).s.mode = .off)
    (hpc : (σ.thread i).pc ≠ .returned) :
    (if l.own i then 1 else 0) + ((σ'.thread i).left P + σ'.os.children.length) +
        (σ.os.forks + 2 * (σ.thread i).s.schedule.added.length) ≤
      (σ.thread i).left P + σ.os.children.length +
        (σ'.os.forks + 2 * (σ'.thread i).s.schedule.added.length) :=
  hσ.pays_of_step h hi
    (fun env _ hl hstep hprog => Thread.left_of_step hstep (hd env hl) (hstop env hl) hpc hprog)
    fun _ hs => left_of_command hs

/-- What a step costs a doomed thread. -/
theorem Regular.left_of_doomed (hσ : σ.Regular) (h : machine.step l σ = .ok σ')
    (hi : i < σ.count) (hd : (σ.thread i).Doomed) (hpc : (σ.thread i).pc ≠ .returned) :
    (if l.own i then 1 else 0) +
        ((σ'.thread i).left WorkUnit.isExit + σ'.os.children.length) +
        (σ.os.forks + 2 * (σ.thread i).s.schedule.added.length) ≤
      (σ.thread i).left WorkUnit.isExit + σ.os.children.length +
        (σ'.os.forks + 2 * (σ'.thread i).s.schedule.added.length) := by
  refine hσ.left_of_step h hi (fun _ _ => hd.awaits _) ?_ hpc
  rintro env rfl now wui wu hpc' hwu hexit -
  rcases thread_of_step h i with ⟨env', t, os, he, -, hstep, rfl, -⟩ | ⟨hno, -⟩
  · cases he
    exact Thread.off_of_step hstep hpc' hwu (of_decide_eq_true hexit)
  · exact absurd (hno env rfl) (by omega)

/-- What a step costs a thread that has left its main loop. -/
theorem Regular.shutdownLeft_of_step (hσ : σ.Regular) (h : machine.step l σ = .ok σ')
    (hi : i < σ.count) (hloop : (σ.thread i).inLoop = false) (hpc : (σ.thread i).pc ≠ .returned) :
    (if l.own i then 1 else 0) +
        Thread.shutdownLeft (σ'.thread i).s.programs.length (σ'.thread i).pc ≤
      Thread.shutdownLeft (σ.thread i).s.programs.length (σ.thread i).pc := by
  have hprog := ((hσ.frame_of_step h).scheduler i).programs
  rw [hprog]
  rcases thread_of_step h i with ⟨env, t, os, rfl, -, hstep, rfl, -⟩ | ⟨hno, s, hs, hthread⟩
  · have hleft := Thread.shutdownLeft_of_step hstep hloop hpc
    simpa only [Label.own, decide_true, if_true] using hleft
  · rw [Label.own_eq_false fun env he => absurd (hno env he) (by omega), hthread]
    simp

theorem not_inLoop_of_step (h : machine.step l σ = .ok σ') (hloop : (σ.thread i).inLoop = false) :
    (σ'.thread i).inLoop = false := by
  rcases thread_of_step h i with ⟨env, t, os, -, -, hstep, rfl, -⟩ | ⟨-, s, hs, hthread⟩
  · rw [← Bool.not_eq_true] at hloop ⊢
    exact fun hin => hloop (Thread.inLoop_of_step hstep hin)
  · rw [hthread]
    exact hloop

/-- How often thread `i` is scheduled. -/
def turns (i : ℕ) (ls : List Label) : ℕ := ls.countP (Label.own i)

/-- Once a thread has left its main loop, none of its steps fails, and it returns within a number
of them that depends on the number of its programs alone, whatever the other threads, the children
and the commands do. -/
theorem shutdown_bounded {σ₀ : Process} {pre : List Label} (h₀ : σ₀.Initial)
    (hpre : machine.exec pre σ₀ = .ok σ) (hi : i < σ₀.count)
    (hloop : (σ.thread i).inLoop = false) (h : machine.exec ls σ = .ok σ') :
    (∀ env, ∃ σ'', machine.step (.thread i env) σ' = .ok σ'') ∧
      (10002 * (σ.thread i).s.programs.length + 21004 < turns i ls →
        (σ'.thread i).pc = .returned) := by
  have hcount := h₀.count_of_run hpre
  have hstart : σ.Regular ∧ σ.count = σ₀.count ∧ (σ.thread i).inLoop = false :=
    ⟨regular_run h₀ hpre, hcount, hloop⟩
  have hstep : ∀ l σ σ', σ.Regular ∧ σ.count = σ₀.count ∧ (σ.thread i).inLoop = false →
      machine.step l σ = .ok σ' →
      σ'.Regular ∧ σ'.count = σ₀.count ∧ (σ'.thread i).inLoop = false :=
    fun l σ σ' hσ h => ⟨hσ.1.step h, (hσ.1.frame_of_step h).count.trans hσ.2.1,
      not_inLoop_of_step h hσ.2.2⟩
  constructor
  · intro env
    obtain ⟨-, hcount', hloop'⟩ := exec_invariant hstep hstart h
    obtain ⟨t, os, ht⟩ := Thread.step_of_not_inLoop hloop' env σ'.os
    exact ⟨_, step_thread (hcount'.symm ▸ hi) ht⟩
  · intro hturns
    have hle := Thread.shutdownLeft_le hloop (h₀.triesLeft_of_run hpre i)
    refine exec_done
      (fun σ => Thread.shutdownLeft (σ.thread i).s.programs.length (σ.thread i).pc) (fun _ => 0)
      (Label.own i) (D := fun σ => (σ.thread i).pc = .returned) hstep
      (fun l σ σ' _ h hpc => returned_of_step h hpc) (fun l σ σ' hσ h hpc _ => ?_) hstart h
      ?_
    · exact hσ.1.shutdownLeft_of_step h (hσ.2.1.symm ▸ hi) hσ.2.2 hpc
    · rw [turns] at hturns
      omega

/-- The rest of that run from the exit unit on, and more steps than the bound says. -/
def shutdownAndRest : List Label :=
  quitSleeper.drop 12 ++ List.replicate 32000 (.thread 0 fun _ => {})

theorem shutdown_bounded_sleeper : ∃ σ σ',
    machine.exec (quitSleeper.take 12) (.configured [.sleeper]) = .ok σ ∧
    machine.exec shutdownAndRest σ = .ok σ' ∧
    (∀ env, ∃ σ'', machine.step (.thread 0 env) σ' = .ok σ'') ∧ (σ'.thread 0).pc = .returned := by
  obtain ⟨σ, σ', hpre, h, hloop, hpc, hprograms⟩ : ∃ σ σ',
      machine.exec (quitSleeper.take 12) (.configured [.sleeper]) = .ok σ ∧
      machine.exec (quitSleeper.drop 12) σ = .ok σ' ∧ (σ.thread 0).inLoop = false ∧
      (σ'.thread 0).pc = .returned ∧ (σ.thread 0).s.programs.length = 1 :=
    ⟨_, _, rfl, rfl, rfl, rfl, rfl⟩
  have hcount := sleeper_initial.count_of_run (exec_append_eq_ok.2 ⟨σ, hpre, h⟩)
  have hend : machine.step (.thread 0 fun _ => {}) σ' = .ok σ' := by
    refine step_of_returned ?_ hpc _
    rw [hcount]
    decide
  have hrun : machine.exec shutdownAndRest σ = .ok σ' :=
    exec_append_eq_ok.2 ⟨σ', h, exec_replicate_eq_ok hend 32000⟩
  have hturns : 32000 ≤ turns 0 shutdownAndRest := by
    rw [turns, shutdownAndRest, List.countP_append, List.countP_replicate]
    exact Nat.le_add_left _ _
  obtain ⟨hsteps, hbound⟩ := shutdown_bounded sleeper_initial hpre (by decide) hloop hrun
  refine ⟨σ, σ', hpre, hrun, hsteps, hbound ?_⟩
  rw [hprograms]
  omega

/-- A scheduler that is off or has a `WT_EXIT` unit queued comes to its end: its thread returns
after finitely many of its own steps, unless processes are started or units queued over and over
again. -/
theorem exit_ends {σ₀ : Process} {pre : List Label} (h₀ : σ₀.Initial)
    (hpre : machine.exec pre σ₀ = .ok σ) (hi : i < σ₀.count) (hd : (σ.thread i).Doomed)
    (h : machine.exec ls σ = .ok σ')
    (hturns : 2 * (σ.thread i).s.schedule.units.length +
      10008 * (σ.thread i).s.programs.length + 21012 + σ.os.children.length +
      (σ'.os.forks - σ.os.forks) +
      2 * ((σ'.thread i).s.schedule.added.length - (σ.thread i).s.schedule.added.length) <
        turns i ls) :
    (σ'.thread i).pc = .returned := by
  have hcount := h₀.count_of_run hpre
  have hle := Thread.left_le WorkUnit.isExit (h₀.triesLeft_of_run hpre i)
  refine exec_done (fun σ => (σ.thread i).left WorkUnit.isExit + σ.os.children.length)
    (fun σ => σ.os.forks + 2 * (σ.thread i).s.schedule.added.length) (Label.own i)
    (I := fun σ => σ.Regular ∧ σ.count = σ₀.count ∧ (σ.thread i).Doomed)
    (D := fun σ => (σ.thread i).pc = .returned)
    (fun l σ σ' hσ h => ⟨hσ.1.step h, (hσ.1.frame_of_step h).count.trans hσ.2.1,
      doomed_of_step h hσ.2.2⟩)
    (fun l σ σ' _ h hpc => returned_of_step h hpc) (fun l σ σ' hσ h hpc _ => ?_)
    ⟨regular_run h₀ hpre, hcount, hd⟩ h ?_
  · exact hσ.1.left_of_doomed h (hσ.2.1.symm ▸ hi) hσ.2.2 hpc
  · rw [turns] at hturns
    omega

/-- `<quit />` arrives, and the thread runs on for longer than it takes. -/
def quitAndRest : List Label :=
  quitSleeper.drop 3 ++ List.replicate 40000 (.thread 0 fun _ => {})

theorem exit_ends_sleeper : ∃ σ σ',
    machine.exec (quitSleeper.take 3) (.configured [.sleeper]) = .ok σ ∧
    machine.exec quitAndRest σ = .ok σ' ∧ (σ'.thread 0).pc = .returned := by
  obtain ⟨σ, σ', hpre, h, hd, hpc, hleft⟩ : ∃ σ σ',
      machine.exec (quitSleeper.take 3) (.configured [.sleeper]) = .ok σ ∧
      machine.exec (quitSleeper.drop 3) σ = .ok σ' ∧
      ((σ.thread 0).s.schedule.units.any fun wu => wu.wType = .exit) ∧
      (σ'.thread 0).pc = .returned ∧
      2 * (σ.thread 0).s.schedule.units.length +
        10008 * (σ.thread 0).s.programs.length + 21012 + σ.os.children.length +
        (σ'.os.forks - σ.os.forks) + 2 * ((σ'.thread 0).s.schedule.added.length -
          (σ.thread 0).s.schedule.added.length) < 40000 :=
    ⟨_, _, rfl, rfl, rfl, rfl, by decide⟩
  have hend : machine.step (.thread 0 fun _ => {}) σ' = .ok σ' := by
    refine step_of_returned ?_ hpc _
    rw [sleeper_initial.count_of_run (exec_append_eq_ok.2 ⟨σ, hpre, h⟩)]
    decide
  have hrun : machine.exec quitAndRest σ = .ok σ' :=
    exec_append_eq_ok.2 ⟨σ', h, exec_replicate_eq_ok hend 40000⟩
  have hturns : 40000 ≤ turns 0 quitAndRest := by
    rw [turns, quitAndRest, List.countP_append, List.countP_replicate]
    exact Nat.le_add_left _ _
  refine ⟨σ, σ', hpre, hrun, ?_⟩
  refine exit_ends sleeper_initial hpre (by decide) (.inr (.inr ?_)) hrun (hleft.trans_le hturns)
  simpa using hd

end Process

end Peter
