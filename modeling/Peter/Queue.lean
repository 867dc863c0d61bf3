import Peter.Lib.Pending
import Peter.Refine
import Peter.Runs

/-!
# Work units are handled once and in time

The invariant of the schedule: what the vector holds, apart from the units marked in the running
pass, are the units added and not handled, in order.  It holds along every run in which no unit is
appended to a full vector during the first pass, and no longer than that (`work_exact_iff`): such
an append moves the vector, and the pass goes on with an iterator into the old buffer.
-/

namespace Peter

open Pending

/-! ## The schedule -/

/-- `WT_NOTINIT` marks a used unit. -/
def WorkUnit.live (wu : WorkUnit) : Bool := wu.wType ≠ .notinit

namespace Schedule

/-- The units handled so far. -/
def done (sch : Schedule) : List WorkUnit := sch.handled.map Prod.fst

/-- The units added and not handled, in order. -/
def waiting (sch : Schedule) : List WorkUnit := pending sch.added sch.done

structure Exact (sch : Schedule) : Prop where
  nodup : (sch.added.map WorkUnit.addr).Nodup
  addr_lt : ∀ wu ∈ sch.added, wu.addr < sch.nextAddr
  kind : ∀ wu ∈ sch.added, wu.wType ≠ .notinit ∧ wu.wType ≠ .waitPid
  once : (sch.done.map WorkUnit.addr).Nodup
  mem : ∀ wu ∈ sch.done, wu ∈ sch.added
  due : ∀ h ∈ sch.handled, h.1.Due h.2
  units : sch.units.filter WorkUnit.live = sch.waiting

variable {sch : Schedule}

theorem Exact.added_nodup (h : sch.Exact) : sch.added.Nodup := h.nodup.of_map _

theorem Exact.mem_waiting (h : sch.Exact) {wu : WorkUnit} (hwu : wu ∈ sch.units)
    (hlive : wu.live) : wu ∈ sch.waiting := by
  rw [← h.units]
  exact List.mem_filter.2 ⟨hwu, hlive⟩

theorem Exact.pushBack (h : sch.Exact) {ty : WType}
    (hty : ty = .exit ∨ ty = .runProg ∨ ty = .endProg) (t : ℤ)
    (p : Option ProgPtr) : (sch.pushBack ⟨sch.nextAddr, ty, t, p⟩).Exact := by
  have hnew : (⟨sch.nextAddr, ty, t, p⟩ : WorkUnit) ∉ sch.added := by
    intro hmem
    have := h.addr_lt _ hmem
    simp at this
  constructor
  case nodup => exact nodup_addr_append h.nodup h.addr_lt
  case addr_lt => exact addr_lt_append h.addr_lt
  case kind =>
    intro wu hwu
    simp only [Schedule.pushBack, List.mem_append, List.mem_singleton] at hwu
    rcases hwu with hwu | rfl
    · exact h.kind wu hwu
    · rcases hty with rfl | rfl | rfl <;> simp
  case once => exact h.once
  case mem => exact fun wu hwu => List.mem_append_left _ (h.mem wu hwu)
  case due => exact h.due
  case units =>
    have hl : WorkUnit.live ⟨sch.nextAddr, ty, t, p⟩ = true := by
      rcases hty with rfl | rfl | rfl <;> rfl
    rw [show (sch.pushBack ⟨sch.nextAddr, ty, t, p⟩).waiting = pending (sch.added ++ _) sch.done
      from rfl, pending_append fun hd => hnew (h.mem _ hd)]
    simp only [Schedule.pushBack, List.filter_append]
    rw [h.units, List.filter_cons_of_pos hl]
    rfl

theorem Exact.markUsed (h : sch.Exact) {pos : ℕ} {wu : WorkUnit} (hwu : sch.units[pos]? = some wu)
    {now : ℤ} (hdue : wu.Due now) : (sch.markUsed pos wu now).Exact := by
  have hlive : wu.live := by
    unfold WorkUnit.live
    cases hty : wu.wType <;> simp [WorkUnit.Due, hty] at hdue ⊢
  have hmem := h.mem_waiting (List.mem_of_getElem? hwu) hlive
  obtain ⟨hadded, hnot⟩ := mem_pending.1 hmem
  constructor
  case nodup => exact h.nodup
  case addr_lt => exact h.addr_lt
  case kind => exact h.kind
  case once =>
    simp only [done, Schedule.markUsed, List.map_append, List.nodup_append]
    refine ⟨h.once, by simp, ?_⟩
    rintro a ha b hb rfl
    obtain ⟨wu', hwu', he⟩ := List.mem_map.1 ha
    have hb : a = wu.addr := by simpa using hb
    have heq : wu' = wu := List.inj_on_of_nodup_map h.nodup (h.mem wu' hwu') hadded (he.trans hb)
    exact hnot (heq ▸ hwu')
  case mem =>
    intro wu' hwu'
    simp only [done, Schedule.markUsed, List.map_append, List.mem_append] at hwu'
    rcases hwu' with hwu' | hwu'
    · exact h.mem wu' hwu'
    · obtain rfl : wu' = wu := by simpa using hwu'
      exact hadded
  case due =>
    intro x hx
    simp only [Schedule.markUsed, List.mem_append, List.mem_singleton] at hx
    rcases hx with hx | rfl
    · exact h.due x hx
    · exact hdue
  case units =>
    have hnd : (sch.units.filter WorkUnit.live).Nodup := by
      rw [h.units]
      exact pending_nodup _ h.added_nodup
    have hdone : (sch.markUsed pos wu now).done = sch.done ++ [wu] := by
      simp [done, Schedule.markUsed]
    rw [waiting, hdone, show (sch.markUsed pos wu now).added = sch.added from rfl,
      pending_handle _ h.added_nodup]
    rw [show (sch.markUsed pos wu now).units = sch.units.set pos { wu with wType := .notinit }
      from rfl, filter_set_eq_erase hwu hlive rfl hnd, h.units]
    rfl

theorem markUsed_capacity (sch : Schedule) (pos : ℕ) (wu : WorkUnit) (now : ℤ) :
    (sch.markUsed pos wu now).capacity = sch.capacity := rfl

theorem eraseUsed_eq_filter (units : List WorkUnit) :
    eraseUsed units = units.filter WorkUnit.live := by
  induction units with
  | nil => rfl
  | cons wu rest ih =>
    rw [eraseUsed, ih]
    by_cases hwu : wu.wType = .notinit
    · rw [if_pos hwu, List.filter_cons_of_neg (by simp [WorkUnit.live, hwu])]
    · rw [if_neg hwu, List.filter_cons_of_pos (by simpa [WorkUnit.live] using hwu)]

theorem Exact.eraseUsed (h : sch.Exact) :
    ({ sch with units := Schedule.eraseUsed sch.units } : Schedule).Exact := by
  refine ⟨h.nodup, h.addr_lt, h.kind, h.once, h.mem, h.due, ?_⟩
  rw [eraseUsed_eq_filter, List.filter_filter]
  simp only [Bool.and_self]
  exact h.units

/-- Only appends, by the scheduler itself or by a command. -/
inductive Grows (sch : Schedule) : Schedule → Prop
  | refl : Grows sch sch
  | push {sch' : Schedule} {ty : WType} {t : ℤ} {p : Option ProgPtr} (h : Grows sch sch')
      (hty : ty = .exit ∨ ty = .runProg ∨ ty = .endProg) :
      Grows sch (sch'.pushBack ⟨sch'.nextAddr, ty, t, p⟩)

theorem Grows.trans {sch' sch'' : Schedule} (h : sch.Grows sch') (h' : sch'.Grows sch'') :
    sch.Grows sch'' := by
  induction h' with
  | refl => exact h
  | push _ hty ih => exact ih.push hty

theorem Grows.of_eq {sch' : Schedule} (h : sch' = sch) : sch.Grows sch' := h ▸ .refl

theorem Grows.exact {sch' : Schedule} (h : sch.Grows sch') (hsch : sch.Exact) : sch'.Exact := by
  induction h with
  | refl => exact hsch
  | push _ hty ih => exact ih.pushBack hty _ _

theorem Grows.appended {sch' : Schedule} (h : sch.Grows sch') :
    sch'.passStart = sch.passStart ∧ sch'.handled = sch.handled ∧
      ∃ l, sch'.units = sch.units ++ l ∧ ∀ wu ∈ l, wu.live := by
  induction h with
  | refl => exact ⟨rfl, rfl, [], by simp, by simp⟩
  | @push sch' ty t p _ hty ih =>
    obtain ⟨hp, hh, l, hu, hl⟩ := ih
    refine ⟨hp, hh, l ++ [⟨sch'.nextAddr, ty, t, p⟩], by simp [Schedule.pushBack, hu], ?_⟩
    intro wu hwu
    rcases List.mem_append.1 hwu with hwu | hwu
    · exact hl wu hwu
    · obtain rfl := List.mem_singleton.1 hwu
      rcases hty with rfl | rfl | rfl <;> rfl

end Schedule

/-! ## The calls -/

namespace World

variable {w w' : World} {p : ProgPtr} {e : Env}

/-- `run` queues the end of the scheduler when the home directory or the binary is missing. -/
theorem run_schedule (h : w.run e p = .ok w') : w'.s.schedule =
    if (w.prog p).pid = 0 ∧ e.missing (w.prog p) then
      w.s.schedule.pushBack ⟨w.s.schedule.nextAddr, .exit, e.now, some p⟩
    else w.s.schedule := by
  cases ran_of_run h with
  | running hpid => rw [if_neg fun hm => hpid hm.1]
  | missing hpid hmissing =>
    rw [if_pos ⟨hpid, hmissing⟩]
    rfl
  | refused hpid hfound =>
    rw [if_neg fun hm => by simp [hfound] at hm]
    rfl
  | launched hpid hok =>
    have hfound : e.missing (w.prog p) = false := by
      simp only [Env.startable, Bool.and_eq_true, Bool.not_eq_true'] at hok
      exact hok.1.1.1
    rw [if_neg fun hm => by simp [hfound] at hm]
    rfl

theorem run_grows (h : w.run e p = .ok w') : w.s.schedule.Grows w'.s.schedule := by
  rw [run_schedule h]
  split_ifs
  · exact Schedule.Grows.refl.push (by simp)
  · exact .refl

theorem unit_type {now t : ℤ} {limitReached : Bool} {p q : ProgPtr} {a : Action} {ty : WType}
    (h : a.unit now limitReached p q = some (ty, t)) :
    ty = .exit ∨ ty = .runProg ∨ ty = .endProg := by
  unfold Action.unit at h
  cases hty : a.actionType <;> simp only [hty] at h
  case exec => split_ifs at h; cases h; simp
  case kill => split_ifs at h; cases h; simp
  case exit => cases h; simp
  all_goals cases h

theorem doAction_grows {res sig : ℤ} {limitReached : Bool} {a : Action}
    (h : w.doAction e p res sig limitReached a = .ok w') :
    w.s.schedule.Grows w'.s.schedule := by
  cases acted_of_doAction h with
  | direct _ _ _ _ hrun =>
    have hg := run_grows hrun
    exact hg
  | queued hunit => exact Schedule.Grows.refl.push (unit_type hunit)
  | passed => exact .refl

theorem doActions_grows {res sig : ℤ} {limitReached : Bool} {al : List Action} {env : ℕ → Env}
    (h : w.doActions p res sig limitReached al env = .ok w') :
    w.s.schedule.Grows w'.s.schedule := by
  induction al generalizing env w with
  | nil => cases h; exact .refl
  | cons a al ih =>
    rw [doActions] at h
    split at h
    · next w₁ hw₁ => exact (doAction_grows hw₁).trans (ih h)
    · cases h

theorem checkLimits_schedule (w : World) (e : Env) (p : ProgPtr) :
    (w.checkLimits e p).2.s.schedule = w.s.schedule := by
  unfold checkLimits
  dsimp only
  split_ifs <;> rfl

theorem whatNext_grows {env : ℕ → Env} {res sig : ℤ} (h : w.whatNext env res sig p = .ok w') :
    w.s.schedule.Grows w'.s.schedule := by
  cases followed_of_whatNext h with
  | stopped => exact .refl
  | next => exact Schedule.Grows.refl.push (by simp)
  | none => exact .refl
  | actions _ _ _ _ hdo =>
    have hg := doActions_grows hdo
    rw [checkLimits_schedule] at hg
    exact hg

theorem addDeathEvent_schedule (w : World) (c : Child) (p : ProgPtr) (now : ℤ) (status : ℕ) :
    ((w.bury c p now).addDeathEvent now p status).s.schedule = w.s.schedule := by
  unfold addDeathEvent
  split_ifs <;> rfl

theorem handleDeath_grows {env : ℕ → Env} {now : ℤ} {c : Child}
    (h : w.handleDeath env now c p = .ok w') : w.s.schedule.Grows w'.s.schedule := by
  obtain ⟨w₁, hw₁, rfl⟩ := handleDeath_eq_ok h
  have hg := whatNext_grows hw₁
  rw [addDeathEvent_schedule] at hg
  exact hg

theorem handleLimit_schedule (w : World) (e : Env) (now : ℤ) (p : ProgPtr) :
    (w.handleLimit e now p).s.schedule = w.s.schedule := by
  unfold handleLimit sendSignal
  dsimp only
  split_ifs <;> rfl

theorem sendSignal_schedule (w : World) (e : Env) (p : ProgPtr) (sig : ℤ) (cause : Cause) :
    (w.sendSignal e p sig cause).2.s.schedule = w.s.schedule := by
  unfold sendSignal
  split_ifs <;> rfl

/-- A start unit for which `run` queues the end of the scheduler. -/
def Queues (w : World) (e : Env) (wu : WorkUnit) : Prop :=
  wu.wType = .runProg ∧ ∃ p, wu.program = some p ∧ (w.prog p).pid = 0 ∧ e.missing (w.prog p)

/-- The first pass marks a unit that is due, after what `run` may append, and leaves the others. -/
theorem handleUnit_schedule {now : ℤ} {pos : ℕ} {wu : WorkUnit}
    (h : handleUnit e now pos wu w = .ok w') :
    (¬wu.Due now ∧ w'.s.schedule = w.s.schedule) ∨
    (wu.Due now ∧ ¬w.Queues e wu ∧ w'.s.schedule = w.s.schedule.markUsed pos wu now) ∨
    (wu.Due now ∧ w.Queues e wu ∧ w'.s.schedule = (w.s.schedule.pushBack
      ⟨w.s.schedule.nextAddr, .exit, e.now, wu.program⟩).markUsed pos wu now) := by
  cases handles_of_handleUnit h with
  | later hnot => exact .inl ⟨hnot, rfl⟩
  | exit hty => exact .inr (.inl ⟨by simp [WorkUnit.Due, hty], by simp [Queues, hty], rfl⟩)
  | nostart hty => exact .inr (.inl ⟨by simp [WorkUnit.Due, hty], by simp [Queues, hty], rfl⟩)
  | stop hty hdue hp hw =>
    refine .inr (.inl ⟨by simp only [WorkUnit.Due, hty]; omega, by simp [Queues, hty], ?_⟩)
    simp only [markUsed, sendSignal_schedule, hw]
    rfl
  | @run p w₁ hty hdue hp hrun =>
    have hdue : wu.Due now := by simp only [WorkUnit.Due, hty]; omega
    have hs := run_schedule hrun
    right
    by_cases hq : (w.prog p).pid = 0 ∧ e.missing (w.prog p)
    · refine .inr ⟨hdue, ⟨hty, p, hp, hq⟩, ?_⟩
      rw [if_pos hq] at hs
      rw [hp, ← hs]
      rfl
    · refine .inl ⟨hdue, ?_, ?_⟩
      · rintro ⟨-, p', hp', hq'⟩
        rw [hp] at hp'
        cases hp'
        exact hq hq'
      · rw [if_neg hq] at hs
        rw [← hs]
        rfl

end World

/-! ## The thread -/

namespace Thread

variable {t t' : Thread} {os os' : OS} {env : ℕ → Env} {e : Env}

/-- The clock and the iterator of the first pass the thread is in. -/
def marking (t : Thread) : Option (ℤ × Iter) := match t.pc with
  | .firstPass now wui => some (now, wui)
  | _ => none

/-- The clock of the pass the thread has made over the schedule. -/
def passed (t : Thread) : Option ℤ := match t.pc with
  | .limits now _ => some now
  | .deaths now _ => some now
  | .poll now _ _ => some now
  | _ => none

/-- The schedule when the unit at the iterator has been marked. -/
def Marked (t : Thread) (sch : Schedule) (now : ℤ) (wui : Iter) (wu : WorkUnit) (t' : Thread) :
    Prop :=
  t.s.schedule.units[wui.pos]? = some wu ∧ wu.Due now ∧
    t'.s.schedule = sch.markUsed wui.pos wu now

/-- What a step does to the schedule. -/
inductive Turn (e : Env) (os : OS) (t t' : Thread) : Prop
  | enter {now : ℤ} (hm : t.marking = none)
      (hm' : t'.marking = some (now, ⟨0, t.s.schedule.capacity⟩)) (hp : t'.passed = none)
      (hs : t'.s.schedule = { t.s.schedule with passStart := t.s.schedule.units })
  | skip {now : ℤ} {wui : Iter} {wu : WorkUnit} (hm : t.marking = some (now, wui))
      (hm' : t'.marking = some (now, { wui with pos := wui.pos + 1 })) (hp : t'.passed = none)
      (hwu : t.s.schedule.units[wui.pos]? = some wu) (hnot : ¬wu.Due now)
      (hs : t'.s.schedule = t.s.schedule)
  | mark {now : ℤ} {wui : Iter} {wu : WorkUnit} (hm : t.marking = some (now, wui))
      (hm' : t'.marking = some (now, { wui with pos := wui.pos + 1 })) (hp : t'.passed = none)
      (hq : ¬World.Queues ⟨t.s, os⟩ e wu) (hs : t.Marked t.s.schedule now wui wu t')
  | queue {now : ℤ} {wui : Iter} {wu : WorkUnit} (hm : t.marking = some (now, wui))
      (hm' : t'.marking = some (now, { wui with pos := wui.pos + 1 })) (hp : t'.passed = none)
      (hq : World.Queues ⟨t.s, os⟩ e wu)
      (hs : t.Marked (t.s.schedule.pushBack
        ⟨t.s.schedule.nextAddr, .exit, e.now, wu.program⟩) now wui wu t')
  | erase {now : ℤ} {wui : Iter} (hm : t.marking = some (now, wui)) (hm' : t'.marking = none)
      (hp : t'.passed = some now) (hend : t.s.schedule.units[wui.pos]? = none)
      (hs : t'.s.schedule =
        { t.s.schedule with units := Schedule.eraseUsed t.s.schedule.units })
  | grow (hm : t.marking = none) (hm' : t'.marking = none)
      (hp : ∀ now, t'.passed = some now → t.passed = some now)
      (hs : t.s.schedule.Grows t'.s.schedule)

theorem turn_of_handleUnit {now : ℤ} {wui : Iter} {wu : WorkUnit} {w : World}
    (hpc : t.pc = .firstPass now wui) (hwu : t.s.schedule.units[wui.pos]? = some wu)
    (hw : World.handleUnit e now wui.pos wu ⟨t.s, os⟩ = .ok w) : t.Turn e os
      { t with s := w.s, pc := .firstPass now { wui with pos := wui.pos + 1 } } := by
  have hm : t.marking = some (now, wui) := by simp [marking, hpc]
  rcases World.handleUnit_schedule hw with ⟨hdue, hsch⟩ | ⟨hdue, hq, hsch⟩ | ⟨hdue, hq, hsch⟩
  · exact .skip hm rfl rfl hwu hdue hsch
  · exact .mark hm rfl rfl hq ⟨hwu, hdue, hsch⟩
  · exact .queue hm rfl rfl hq ⟨hwu, hdue, hsch⟩

theorem marking_eq_none (h : ∀ now wui, t.pc ≠ .firstPass now wui) : t.marking = none := by
  unfold marking
  split
  · next now wui hpc => exact absurd hpc (h now wui)
  · rfl

theorem turn_of_jump {pc : Pc} (hj : t.Jump pc) : t.Turn e os { t with pc } := by
  refine .grow (marking_eq_none hj.not_firstPass) ?_ ?_ .refl
  · cases hj <;> rfl
  · cases hj <;> simp [passed, *]

theorem turn_of_waits {child zero echild pc : Pc} {s : Scheduler} (h : t.Waits child zero echild)
    (hpc : pc = child ∨ pc = zero ∨ pc = echild) (hs : t.s.schedule.Grows s.schedule) :
    t.Turn e os { t with s, pc } := by
  refine .grow (marking_eq_none (not_firstPass_of_not_inLoop h.inLoop)) ?_ ?_ hs
  · rcases hpc with rfl | rfl | rfl <;> cases h <;> rfl
  · rcases hpc with rfl | rfl | rfl <;> cases h <;> simp [passed]

/-- Every step of the thread makes one of these turns. -/
theorem step_turn (h : t.step env os = .ok (t', os')) : t.Turn (env 0) os t' := by
  obtain ⟨pc, w, hm, rfl, rfl⟩ := step_moves h
  cases hm with
  | jump hj => exact turn_of_jump hj
  | leave hpc => exact .grow (by simp [marking, hpc]) rfl (by simp [passed]) .refl
  | enter hpc => exact .enter (by simp [marking, hpc]) rfl rfl rfl
  | unit hpc hwu hw => exact turn_of_handleUnit hpc hwu hw
  | erase hpc hwu => exact .erase (by simp [marking, hpc]) rfl rfl hwu rfl
  | limit hpc =>
    exact .grow (by simp [marking, hpc]) rfl (by simp [passed, hpc])
      (.of_eq (World.handleLimit_schedule ..))
  | death hpc hreap hp hw =>
    exact .grow (by simp [marking, hpc]) rfl (by simp [passed, hpc]) (World.handleDeath_grows hw)
  | alive hpc => exact .grow (by simp [marking, hpc]) rfl (by simp [passed, hpc]) .refl
  | stray hreap =>
    exact .grow (marking_eq_none (not_firstPass_of_reaps hreap)) rfl (by simp [passed]) .refl
  | bury hwait => exact turn_of_waits hwait (.inl rfl) .refl
  | nobody hwait hreap hpc => exact turn_of_waits hwait (.inr hpc) .refl
  | stop hpc =>
    exact .grow (by simp [marking, hpc]) rfl (by simp [passed])
      (.of_eq (World.sendSignal_schedule ..))
  | stopped hpc => exact .grow (by simp [marking, hpc]) rfl (by simp [passed]) .refl
  | kill hpc =>
    exact .grow (by simp [marking, hpc]) rfl (by simp [passed])
      (.of_eq (World.sendSignal_schedule ..))
  | finish hfin =>
    have hno := not_firstPass_of_not_inLoop (inLoop_of_finishing hfin)
    exact .grow (marking_eq_none hno) rfl (by simp [passed]) .refl

/-- The invariant of a scheduler thread and its schedule. -/
structure Work (t : Thread) : Prop where
  exact : t.s.schedule.Exact
  unmarked : t.marking = none → ∀ wu ∈ t.s.schedule.units, wu.live
  valid : ∀ now wui, t.marking = some (now, wui) → wui.capacity = t.s.schedule.capacity
  within : ∀ now wui, t.marking = some (now, wui) → wui.pos ≤ t.s.schedule.units.length
  behind : ∀ now wui, t.marking = some (now, wui) →
    ∀ k < wui.pos, ∀ wu, t.s.schedule.units[k]? = some wu → ¬wu.Due now
  start : ∀ now wui, t.marking = some (now, wui) →
    ∀ wu ∈ t.s.schedule.passStart, wu ∈ t.s.schedule.added
  kind : ∀ wu ∈ t.s.schedule.passStart, wu.wType ≠ .notinit ∧ wu.wType ≠ .waitPid
  passed : ∀ now, t.passed = some now →
    ∀ wu ∈ t.s.schedule.passStart, wu.Due now → wu ∈ t.s.schedule.done

namespace Work

/-- An append leaves the buffer where it is when there is room. -/
theorem push (hw : t.Work) {ty : WType} (hty : ty = .exit ∨ ty = .runProg ∨ ty = .endProg)
    (time : ℤ) (p : Option ProgPtr)
    (hroom : t.marking ≠ none → t.s.schedule.units.length < t.s.schedule.capacity) :
    Work { t with s := { t.s with
      schedule := t.s.schedule.pushBack ⟨t.s.schedule.nextAddr, ty, time, p⟩ } } := by
  have hlive : WorkUnit.live ⟨t.s.schedule.nextAddr, ty, time, p⟩ = true := by
    rcases hty with rfl | rfl | rfl <;> rfl
  constructor
  case exact => exact hw.exact.pushBack hty time p
  case unmarked =>
    intro hm wu hwu
    rcases List.mem_append.1 hwu with hwu | hwu
    · exact hw.unmarked hm wu hwu
    · exact List.mem_singleton.1 hwu ▸ hlive
  case valid =>
    intro now wui hm
    have hlt := hroom fun h => by simp [show t.marking = some (now, wui) from hm] at h
    simp only [Schedule.pushBack, if_pos hlt]
    exact hw.valid now wui hm
  case within =>
    intro now wui hm
    have := hw.within now wui hm
    simp only [Schedule.pushBack, List.length_append]
    omega
  case behind =>
    intro now wui hm k hk wu hwu
    have hlt := lt_of_lt_of_le hk (hw.within now wui hm)
    simp only [Schedule.pushBack, List.getElem?_append_left hlt] at hwu
    exact hw.behind now wui hm k hk wu hwu
  case start => exact fun now wui hm wu hwu => List.mem_append_left _ (hw.start now wui hm wu hwu)
  case kind => exact hw.kind
  case passed => exact hw.passed

/-- The iterator goes on behind a unit that is not due, or was marked. -/
theorem advance (hw : t.Work) {now : ℤ} {wui : Iter} (hm : t.marking = some (now, wui))
    {wu : WorkUnit} (hwu : t.s.schedule.units[wui.pos]? = some wu) {sch : Schedule}
    (hsch : sch.Exact) {wu' : WorkUnit} (hnot : ¬wu'.Due now)
    (hunits : sch.units = t.s.schedule.units.set wui.pos wu')
    (hcap : sch.capacity = t.s.schedule.capacity)
    (hstart : sch.passStart = t.s.schedule.passStart) (hadded : sch.added = t.s.schedule.added)
    (hm' : t'.marking = some (now, { wui with pos := wui.pos + 1 })) (hp : t'.passed = none)
    (hs : t'.s.schedule = sch) : t'.Work := by
  have hlt : wui.pos < t.s.schedule.units.length := (List.getElem?_eq_some_iff.1 hwu).1
  have hmark : ∀ {now' wui'}, t'.marking = some (now', wui') →
      now' = now ∧ wui' = { wui with pos := wui.pos + 1 } := by
    intro now' wui' h
    rw [hm'] at h
    cases h
    exact ⟨rfl, rfl⟩
  constructor
  case exact => rwa [hs]
  case unmarked => simp [hm']
  case valid =>
    intro now' wui' h
    obtain ⟨rfl, rfl⟩ := hmark h
    rw [hs, hcap]
    exact hw.valid _ wui hm
  case within =>
    intro now' wui' h
    obtain ⟨rfl, rfl⟩ := hmark h
    rw [hs, hunits, List.length_set]
    exact hlt
  case behind =>
    intro now' wui' h k hk x hx
    obtain ⟨rfl, rfl⟩ := hmark h
    rw [hs, hunits, List.getElem?_set] at hx
    split_ifs at hx with hpos
    · cases hx
      exact hnot
    · exact hw.behind _ wui hm k (by simp only at hk; omega) x hx
  case start =>
    intro now' wui' h
    rw [hs, hstart, hadded]
    exact hw.start _ wui hm
  case kind =>
    rw [hs, hstart]
    exact hw.kind
  case passed => simp [hp]

theorem mark (hw : t.Work) {now : ℤ} {wui : Iter} (hm : t.marking = some (now, wui))
    {wu : WorkUnit} (hwu : t.s.schedule.units[wui.pos]? = some wu) (hdue : wu.Due now)
    (hm' : t'.marking = some (now, { wui with pos := wui.pos + 1 })) (hp : t'.passed = none)
    (hs : t'.s.schedule = t.s.schedule.markUsed wui.pos wu now) : t'.Work :=
  hw.advance hm hwu (hw.exact.markUsed hwu hdue)
    (show ¬WorkUnit.Due now { wu with wType := .notinit } from id) rfl rfl rfl rfl hm' hp hs

/-- A pass begins: its iterator stands at the front, and nothing is marked yet. -/
theorem enter (hw : t.Work) {now : ℤ} (hm : t.marking = none)
    (hm' : t'.marking = some (now, ⟨0, t.s.schedule.capacity⟩)) (hp : t'.passed = none)
    (hs : t'.s.schedule = { t.s.schedule with passStart := t.s.schedule.units }) : t'.Work := by
  have hmark : ∀ {now' wui'}, t'.marking = some (now', wui') →
      wui' = ⟨0, t.s.schedule.capacity⟩ := by
    intro now' wui' h
    rw [hm'] at h
    cases h
    rfl
  have hadded : ∀ wu ∈ t.s.schedule.units, wu ∈ t.s.schedule.added := fun wu hwu =>
    (mem_pending.1 (hw.exact.mem_waiting hwu (hw.unmarked hm wu hwu))).1
  constructor
  case exact =>
    rw [hs]
    have he := hw.exact
    exact ⟨he.nodup, he.addr_lt, he.kind, he.once, he.mem, he.due, he.units⟩
  case unmarked => simp [hm']
  case valid =>
    intro now' wui' h
    rw [hmark h, hs]
  case within =>
    intro now' wui' h
    rw [hmark h]
    exact Nat.zero_le _
  case behind =>
    intro now' wui' h k hk
    rw [hmark h] at hk
    exact absurd hk (Nat.not_lt_zero k)
  case start =>
    intro now' wui' h wu hwu
    rw [hs] at hwu ⊢
    exact hadded wu hwu
  case kind =>
    intro wu hwu
    rw [hs] at hwu
    exact hw.exact.kind wu (hadded wu hwu)
  case passed => simp [hp]

/-- A due unit that is not handled is still in the vector. -/
theorem mem_units_of_notMem_done (hw : t.Work) {wu : WorkUnit} (hadd : wu ∈ t.s.schedule.added)
    (hnot : wu ∉ t.s.schedule.done) : wu ∈ t.s.schedule.units := by
  have hpend : wu ∈ t.s.schedule.waiting := mem_pending.2 ⟨hadd, hnot⟩
  rw [← hw.exact.units] at hpend
  exact (List.mem_filter.1 hpend).1

/-- A pass ends with the marked units erased, and has seen all that was in the vector. -/
theorem erase (hw : t.Work) {now : ℤ} {wui : Iter} (hm : t.marking = some (now, wui))
    (hm' : t'.marking = none) (hp : t'.passed = some now)
    (hend : t.s.schedule.units[wui.pos]? = none)
    (hs : t'.s.schedule =
      { t.s.schedule with units := Schedule.eraseUsed t.s.schedule.units }) : t'.Work := by
  constructor
  case exact => exact hs ▸ hw.exact.eraseUsed
  case unmarked =>
    intro _ wu hwu
    rw [hs, show ({ t.s.schedule with units := Schedule.eraseUsed t.s.schedule.units } :
      Schedule).units = _ from rfl, Schedule.eraseUsed_eq_filter] at hwu
    exact (List.mem_filter.1 hwu).2
  case valid => simp [hm']
  case within => simp [hm']
  case behind => simp [hm']
  case start => simp [hm']
  case kind => exact hs ▸ hw.kind
  case passed =>
    intro now' hp' wu hwu hdue
    rw [hp] at hp'
    cases hp'
    rw [hs] at hwu ⊢
    by_contra hnot
    obtain ⟨k, hk, hget⟩ := List.getElem_of_mem
      (hw.mem_units_of_notMem_done (hw.start now wui hm wu hwu) hnot)
    have hlen := List.getElem?_eq_none_iff.1 hend
    exact hw.behind now wui hm k (by omega) wu (List.getElem?_eq_some_iff.2 ⟨hk, hget⟩) hdue

/-- Outside a pass the vector only grows, and the last pass stays what it was. -/
theorem grow (hw : t.Work) (hm : t.marking = none) (hm' : t'.marking = none)
    (hp : ∀ now, t'.passed = some now → t.passed = some now)
    (hs : t.s.schedule.Grows t'.s.schedule) : t'.Work := by
  obtain ⟨hstart, hhandled, l, hunits, hl⟩ := hs.appended
  constructor
  case exact => exact hs.exact hw.exact
  case unmarked =>
    intro _ wu hwu
    rw [hunits, List.mem_append] at hwu
    rcases hwu with hwu | hwu
    · exact hw.unmarked hm wu hwu
    · exact hl wu hwu
  case valid => simp [hm']
  case within => simp [hm']
  case behind => simp [hm']
  case start => simp [hm']
  case kind => exact hstart ▸ hw.kind
  case passed =>
    intro now hnow wu hwu hdue
    rw [hstart] at hwu
    rw [Schedule.done, hhandled]
    exact hw.passed now (hp now hnow) wu hwu hdue

/-- A turn keeps the invariant when no append of the first pass meets a full vector. -/
theorem turn (hw : t.Work) (h : t.Turn e os t')
    (hroom : ∀ now wui wu, t.marking = some (now, wui) →
      t.s.schedule.units[wui.pos]? = some wu → wu.Due now → World.Queues ⟨t.s, os⟩ e wu →
      t.s.schedule.units.length < t.s.schedule.capacity) : t'.Work := by
  cases h with
  | enter hm hm' hp hs => exact hw.enter hm hm' hp hs
  | @skip now wui wu hm hm' hp hwu hnot hs =>
    refine hw.advance hm hwu hw.exact hnot ?_ rfl rfl rfl hm' hp hs
    obtain ⟨hlt, hget⟩ := List.getElem?_eq_some_iff.1 hwu
    rw [← hget, List.set_getElem_self]
  | mark hm hm' hp _ hs => exact hw.mark hm hs.1 hs.2.1 hm' hp hs.2.2
  | @queue now wui wu hm hm' hp hq hs =>
    have hlt := hroom now wui wu hm hs.1 hs.2.1 hq
    have hw₁ := hw.push (.inl (rfl : WType.exit = .exit)) e.now wu.program fun _ => hlt
    refine hw₁.mark hm ?_ hs.2.1 hm' hp hs.2.2
    simp only [Schedule.pushBack]
    rw [List.getElem?_append_left (List.getElem?_eq_some_iff.1 hs.1).1]
    exact hs.1
  | erase hm hm' hp hend hs => exact hw.erase hm hm' hp hend hs
  | grow hm hm' hp hs => exact hw.grow hm hm' hp hs

end Work

/-- A scheduler thread has handled its units as it should. -/
structure WorkExact (t : Thread) : Prop where
  /-- Every unit is handled once at most, … -/
  once : (t.s.schedule.handled.map fun h => h.1.addr).Nodup
  /-- … a start or stop unit not before its time. -/
  early : ∀ h ∈ t.s.schedule.handled, h.1.timed → h.1.tAt ≤ h.2
  /-- A pass leaves nothing behind that was due when it began. -/
  cleared : ∀ now, t.passed = some now → ∀ wu ∈ t.s.schedule.passStart,
    wu.tAt ≤ now ∨ wu.wType = .exit ∨ wu.wType = .nostart → wu ∉ t.s.schedule.units
  /-- What the schedule holds between two passes is what was added and not handled, in order. -/
  left : t.marking = none → t.s.schedule.units =
    t.s.schedule.added.filter fun wu => wu ∉ t.s.schedule.handled.map Prod.fst
  /-- The iterator of a pass points into the vector, so that the pass is defined. -/
  valid : ∀ now wui, t.marking = some (now, wui) → wui.capacity = t.s.schedule.capacity

/-- The difference is right about the times of the units in a pass: it takes up none that stands
before its time, and leaves none behind that it began with and whose time has come. -/
def Punctual (t : Thread) : Prop := ∀ now wui, t.marking = some (now, wui) →
  (∀ wu, t.s.schedule.units[wui.pos]? = some wu → wu.timed → wu.delta now ≤ 0 → wu.tAt ≤ now) ∧
    (t.s.schedule.units[wui.pos]? = none →
      ∀ wu ∈ t.s.schedule.passStart, wu.timed → wu.tAt ≤ now → wu.delta now ≤ 0)

/-- So far it was. -/
structure InTime (t : Thread) : Prop where
  early : ∀ h ∈ t.s.schedule.handled, h.1.timed → h.1.tAt ≤ h.2
  passed : ∀ now, t.passed = some now →
    ∀ wu ∈ t.s.schedule.passStart, wu.timed → wu.tAt ≤ now → wu.delta now ≤ 0

theorem InTime.mark (ht : t.InTime) (hfit : t.Punctual) {now : ℤ} {wui : Iter} {wu : WorkUnit}
    {sch : Schedule} (hm : t.marking = some (now, wui)) (hs : t.Marked sch now wui wu t')
    (hsch : sch.handled = t.s.schedule.handled) (hp : t'.passed = none) : t'.InTime where
  early h hh hty := by
    rw [hs.2.2, Schedule.markUsed, hsch, List.mem_append, List.mem_singleton] at hh
    rcases hh with hh | rfl
    · exact ht.early h hh hty
    · exact (hfit now wui hm).1 wu hs.1 hty ((WorkUnit.due_iff_of_timed hty).1 hs.2.1)
  passed := by simp [hp]

theorem InTime.turn (ht : t.InTime) (h : t.Turn e os t') (hfit : t.Punctual) : t'.InTime := by
  cases h with
  | enter hm hm' hp hs => exact ⟨by rw [hs]; exact ht.early, by simp [hp]⟩
  | skip hm hm' hp hwu hnot hs => exact ⟨by rw [hs]; exact ht.early, by simp [hp]⟩
  | mark hm hm' hp _ hs => exact ht.mark hfit hm hs rfl hp
  | queue hm hm' hp hq hs => exact ht.mark hfit hm hs rfl hp
  | @erase now wui hm hm' hp hend hs =>
    refine ⟨by rw [hs]; exact ht.early, fun now' hp' => ?_⟩
    rw [hp] at hp'
    cases hp'
    rw [hs]
    exact (hfit now wui hm).2 hend
  | grow hm hm' hp hs =>
    obtain ⟨hstart, hhandled, -⟩ := hs.appended
    refine ⟨by rw [hhandled]; exact ht.early, fun now hnow => ?_⟩
    rw [hstart]
    exact ht.passed now (hp now hnow)

/-- What the pass began with and does not take up is not handled. -/
def Fresh (t : Thread) : Prop := ∀ now wui, t.marking = some (now, wui) →
  ∀ wu ∈ t.s.schedule.passStart, wu ∈ t.s.schedule.done → wu.Due now

theorem Fresh.turn (hf : t.Fresh) (hw : t.Work) (h : t.Turn e os t') : t'.Fresh := by
  have hmark : ∀ {now wui wu sch}, t.marking = some (now, wui) →
      t'.marking = some (now, { wui with pos := wui.pos + 1 }) → t.Marked sch now wui wu t' →
      sch.handled = t.s.schedule.handled → sch.passStart = t.s.schedule.passStart → t'.Fresh := by
    intro now wui wu sch hm hm' hs hhandled hstart now' wui' hm₁ x hx hdone
    rw [hm'] at hm₁
    cases hm₁
    rw [hs.2.2, Schedule.markUsed, hstart] at hx
    rw [Schedule.done, hs.2.2, Schedule.markUsed, hhandled, List.map_append, List.mem_append,
      List.map_singleton, List.mem_singleton] at hdone
    rcases hdone with hdone | rfl
    · exact hf now wui hm x hx hdone
    · exact hs.2.1
  cases h with
  | enter hm hm' hp hs =>
    intro now wui hm₁ wu hwu hdone
    rw [hs] at hwu hdone
    have hpend := hw.exact.mem_waiting hwu (hw.unmarked hm wu hwu)
    exact absurd hdone (mem_pending.1 hpend).2
  | skip hm hm' hp hwu hnot hs =>
    intro now wui hm₁ wu hwu hdone
    rw [hm'] at hm₁
    cases hm₁
    rw [hs] at hwu hdone
    exact hf _ _ hm wu hwu hdone
  | mark hm hm' hp _ hs => exact hmark hm hm' hs rfl rfl
  | queue hm hm' hp hq hs => exact hmark hm hm' hs rfl rfl
  | erase hm hm' => simp [Fresh, hm']
  | grow hm hm' => simp [Fresh, hm']

theorem Work.workExact (hw : t.Work) (ht : t.InTime) : t.WorkExact where
  once := by simpa [Schedule.done, List.map_map, Function.comp_def] using hw.exact.once
  early := ht.early
  cleared now hp wu hwu hdue hmem := by
    have hdue : wu.Due now := by
      have hkind := hw.kind wu hwu
      have htimed : wu.timed → wu.tAt ≤ now → wu.delta now ≤ 0 := ht.passed now hp wu hwu
      cases hty : wu.wType <;> simp_all [WorkUnit.Due, WorkUnit.timed]
    have hm : t.marking = none := by
      cases hpc : t.pc <;> simp [Thread.passed, hpc] at hp <;> simp [marking, hpc]
    have hpend := hw.exact.mem_waiting hmem (hw.unmarked hm wu hmem)
    exact (mem_pending.1 hpend).2 (hw.passed now hp wu hwu hdue)
  left hm := by
    have hlive : t.s.schedule.units.filter WorkUnit.live = t.s.schedule.units :=
      List.filter_eq_self.2 fun wu hwu => hw.unmarked hm wu hwu
    exact hlive.symm.trans hw.exact.units
  valid := hw.valid

/-- A pass that is early or late about a unit shows in what it has handled, or left. -/
theorem punctual_of_turn (hw : t.Work) (hf : t.Fresh) (h : t.Turn e os t')
    (hw' : t'.WorkExact) : t.Punctual := by
  intro now wui hm
  constructor
  · intro wu hwu hty hdelta
    have hdue : wu.Due now := (WorkUnit.due_iff_of_timed hty).2 hdelta
    have hmarked : ∀ {now' wui' wu' sch}, t.marking = some (now', wui') →
        t.Marked sch now' wui' wu' t' → wu.tAt ≤ now := by
      intro now' wui' wu' sch hm' hs
      cases hm.symm.trans hm'
      cases hwu.symm.trans hs.1
      refine hw'.early (wu, now) ?_ hty
      rw [hs.2.2]
      exact List.mem_append_right _ (List.mem_singleton_self _)
    cases h with
    | enter hno => exact absurd (hno.symm.trans hm) (by simp)
    | skip hm' _ _ hwu' hnot =>
      cases hm.symm.trans hm'
      cases hwu.symm.trans hwu'
      exact absurd hdue hnot
    | mark hm' _ _ _ hs => exact hmarked hm' hs
    | queue hm' _ _ _ hs => exact hmarked hm' hs
    | erase hm' _ _ hend =>
      cases hm.symm.trans hm'
      exact absurd (hend.symm.trans hwu) (by simp)
    | grow hno => exact absurd (hno.symm.trans hm) (by simp)
  · intro hend wu hwu hty htime
    by_contra hdelta
    have hno : ∀ {now' wui' wu' sch}, t.marking = some (now', wui') →
        t.Marked sch now' wui' wu' t' → False := by
      intro now' wui' wu' sch hm' hs
      cases hm.symm.trans hm'
      exact absurd (hend.symm.trans hs.1) (by simp)
    cases h with
    | enter hno => exact absurd (hno.symm.trans hm) (by simp)
    | skip hm' _ _ hwu' =>
      cases hm.symm.trans hm'
      exact absurd (hend.symm.trans hwu') (by simp)
    | mark hm' _ _ _ hs => exact hno hm' hs
    | queue hm' _ _ _ hs => exact hno hm' hs
    | erase hm' _ hp _ hs =>
      cases hm.symm.trans hm'
      have hdone : wu ∉ t.s.schedule.done := fun hdone =>
        hdelta ((WorkUnit.due_iff_of_timed hty).1 (hf now wui hm wu hwu hdone))
      have hmem := hw.mem_units_of_notMem_done (hw.start now wui hm wu hwu) hdone
      refine hw'.cleared now hp wu (by rwa [hs]) (.inl htime) ?_
      rw [hs, show ({ t.s.schedule with units := Schedule.eraseUsed t.s.schedule.units } :
        Schedule).units = _ from rfl, Schedule.eraseUsed_eq_filter]
      exact List.mem_filter.2 ⟨hmem, by rcases hty with hty | hty <;> simp [WorkUnit.live, hty]⟩
    | grow hno => exact absurd (hno.symm.trans hm) (by simp)

end Thread

/-! ## The process -/

namespace Process

variable {σ₀ σ σ' : Process} {l : Label}

/-- So have all of them. -/
def WorkExact (σ : Process) : Prop := ∀ i < σ.count, (σ.thread i).WorkExact

/-- The step queues a unit for scheduler `i`: a start unit whose program's home directory or binary
is missing comes up, or a command arrives. -/
def Queues (σ : Process) (i : ℕ) (l : Label) : Prop :=
  (∃ env p, l = .thread i env ∧ (σ.thread i).AtStart p ∧ ((σ.thread i).s.prog p).pid = 0 ∧
    (env 0).missing ((σ.thread i).s.prog p)) ∨ σ.Commands i l

/-- A unit queued during the first pass over a schedule finds room in the vector. -/
def RoomToQueue (σ : Process) (l : Label) (_ : Process) : Prop :=
  ∀ i < σ.count, (σ.thread i).marking ≠ none → σ.Queues i l →
    (σ.thread i).s.schedule.units.length < (σ.thread i).s.schedule.capacity

theorem work_step {i : ℕ} (hi : i < σ.count) (hw : (σ.thread i).Work)
    (h : machine.step l σ = .ok σ') (hroom : σ.RoomToQueue l σ') : (σ'.thread i).Work := by
  rcases thread_of_step h i with ⟨env, t, os, rfl, -, hstep, rfl, -⟩ | ⟨-, s, hs, he⟩
  · apply hw.turn (Thread.step_turn hstep)
    intro now wui wu hm hwu hdue hq
    obtain ⟨hty, p, hp, hpid, hmiss⟩ := hq
    have hpc : (σ.thread i).pc = .firstPass now wui := by
      cases hpc : (σ.thread i).pc <;> simp_all [Thread.marking]
    have hat : (σ.thread i).AtStart p := by
      refine ⟨now, wui, wu, hpc, hwu, hty, ?_, hp⟩
      simp only [WorkUnit.Due, hty] at hdue
      omega
    exact hroom i hi (by simp [hm]) (.inl ⟨env, p, rfl, hat, hpid, hmiss⟩)
  · rw [he]
    cases hs with
    | none => exact hw
    | off =>
      exact ⟨hw.exact, hw.unmarked, hw.valid, hw.within, hw.behind, hw.start, hw.kind, hw.passed⟩
    | unit hq hty =>
      refine hw.push ?_ _ _ fun hm => hroom i hi hm (.inr hq)
      rcases hty with rfl | ⟨rfl | rfl, -⟩
      · exact .inl rfl
      · exact .inr (.inl rfl)
      · exact .inr (.inr rfl)

/-- An append to a full vector leaves the iterator of the running pass in the old buffer. -/
theorem room_of_step {i : ℕ} (hi : i < σ.count) (hw : (σ.thread i).Work)
    (h : machine.step l σ = .ok σ') (hw' : (σ'.thread i).WorkExact)
    (hm : (σ.thread i).marking ≠ none) (hq : σ.Queues i l) :
    (σ.thread i).s.schedule.units.length < (σ.thread i).s.schedule.capacity := by
  obtain ⟨⟨now, wui⟩, hm⟩ := Option.ne_none_iff_exists'.1 hm
  have hvalid := hw.valid now wui hm
  by_contra hfull
  have hgrown : ∀ wu, ((σ.thread i).s.schedule.pushBack wu).capacity ≠ wui.capacity := by
    intro wu he
    simp only [Schedule.pushBack, if_neg hfull] at he
    omega
  rcases hq with ⟨env, p, rfl, hat, hpid, hmiss⟩ | hq
  · obtain ⟨now', wui', wu, hpc, hwu, hty, hdue, hp⟩ := hat
    have hm₀ : (σ.thread i).marking = some (now', wui') := by simp [Thread.marking, hpc]
    rw [hm] at hm₀
    cases hm₀
    have hqueues : World.Queues ⟨(σ.thread i).s, σ.os⟩ (env 0) wu := ⟨hty, p, hp, hpid, hmiss⟩
    rcases thread_of_step h i with ⟨env', t, os, hl, -, hstep, rfl, -⟩ | ⟨hl, -⟩
    · cases hl
      cases Thread.step_turn hstep with
      | enter hno => exact absurd (hno.symm.trans hm) (by simp)
      | skip hm' _ _ hwu' hnot =>
        cases hm.symm.trans hm'
        cases hwu.symm.trans hwu'
        apply hnot
        simp only [WorkUnit.Due, hty]
        omega
      | mark hm' _ _ hno hs =>
        cases hm.symm.trans hm'
        cases hwu.symm.trans hs.1
        exact hno hqueues
      | queue hm' hm'' _ _ hs =>
        cases hm.symm.trans hm'
        have hv := hw'.valid _ _ hm''
        rw [hs.2.2, Schedule.markUsed_capacity] at hv
        exact hgrown _ hv.symm
      | erase hm' _ _ hend =>
        cases hm.symm.trans hm'
        exact absurd (hend.symm.trans hwu) (by simp)
      | grow hno => exact absurd (hno.symm.trans hm) (by simp)
    · exact absurd (hl env rfl) (by omega)
  · rcases thread_of_step h i with ⟨env', t, os, rfl, -⟩ | ⟨-, s, hs, he⟩
    · exact hq
    · cases hs with
      | none hno => exact hno hq
      | off hno => exact hno hq
      | unit _ _ =>
        have hv := hw'.valid now wui (by rw [he]; exact hm)
        rw [he] at hv
        exact hgrown _ hv.symm

theorem Initial.work (h : σ.Initial) (i : ℕ) : (σ.thread i).Work := by
  have hl := (h.scheduler i).schedule
  have hpc := h.pc i
  have hm : (σ.thread i).marking = none := by simp [Thread.marking, hpc]
  have hkind : ∀ wu ∈ (σ.thread i).s.schedule.units,
      wu.wType ≠ .notinit ∧ wu.wType ≠ .waitPid := by
    intro wu hwu
    rcases hl.wType wu hwu with hty | hty | hty <;> simp [hty]
  have hlive : ∀ wu ∈ (σ.thread i).s.schedule.units, wu.live := fun wu hwu => by
    simpa [WorkUnit.live] using (hkind wu hwu).1
  constructor
  case exact =>
    constructor
    case nodup => rw [hl.added]; exact hl.nodup
    case addr_lt => rw [hl.added]; exact hl.addr_lt
    case kind => rw [hl.added]; exact hkind
    case once => simp [Schedule.done, hl.handled]
    case mem => simp [Schedule.done, hl.handled]
    case due => simp [hl.handled]
    case units =>
      rw [Schedule.waiting, Schedule.done, hl.handled, List.map_nil, pending_nil, hl.added]
      exact List.filter_eq_self.2 hlive
  case unmarked => exact fun _ => hlive
  case kind => simp [hl.passStart]
  case passed => simp [Thread.passed, hpc]
  all_goals simp [hm]

/-- In a pass the differences of times are right about the units it meets. -/
def DeltasRight (σ : Process) (l : Label) (_ : Process) : Prop :=
  ∀ i env, l = .thread i env → i < σ.count → (σ.thread i).Punctual

/-- What holds of a thread as long as its units are handled as they should be. -/
structure Orderly (t : Thread) : Prop where
  work : t.Work
  inTime : t.InTime
  fresh : t.Fresh

theorem orderly_step {i : ℕ} (hi : i < σ.count) (ht : Orderly (σ.thread i))
    (h : machine.step l σ = .ok σ') (hroom : σ.RoomToQueue l σ') (hright : σ.DeltasRight l σ') :
    Orderly (σ'.thread i) := by
  have hw := work_step hi ht.work h hroom
  rcases thread_of_step h i with ⟨env, t, os, rfl, -, hstep, rfl, -⟩ | ⟨-, s, hs, he⟩
  · have hturn := Thread.step_turn hstep
    exact ⟨hw, ht.inTime.turn hturn (hright i env rfl hi), ht.fresh.turn ht.work hturn⟩
  · rw [he] at hw ⊢
    cases hs with
    | none => exact ht
    | off => exact ⟨hw, ⟨ht.inTime.early, ht.inTime.passed⟩, ht.fresh⟩
    | unit => exact ⟨hw, ⟨ht.inTime.early, ht.inTime.passed⟩, ht.fresh⟩

theorem Initial.orderly (h : σ.Initial) (i : ℕ) : Orderly (σ.thread i) where
  work := h.work i
  inTime := by
    have hpassed : (σ.thread i).passed = none := by simp [Thread.passed, h.pc i]
    exact ⟨by simp [(h.scheduler i).schedule.handled], by simp [hpassed]⟩
  fresh := by
    have hm : (σ.thread i).marking = none := by simp [Thread.marking, h.pc i]
    simp [Thread.Fresh, hm]

/-- Work units are handled once, in time and in order along exactly the runs in which no unit is
queued during a first pass while the vector is full, and no difference of times is wrong. -/
theorem work_exact_iff (h₀ : σ₀.Initial) (ls : List Label) :
    machine.Along (fun σ l σ' => σ.RoomToQueue l σ' ∧ σ.DeltasRight l σ') ls σ₀ ↔
      machine.Always WorkExact ls σ₀ := by
  have ht₀ : ∀ i < σ₀.count, Orderly (σ₀.thread i) := fun i _ => h₀.orderly i
  have hstep : ∀ l τ τ', (τ.Regular ∧ ∀ i < τ.count, Orderly (τ.thread i)) →
      machine.step l τ = .ok τ' → τ.RoomToQueue l τ' ∧ τ.DeltasRight l τ' →
      τ'.Regular ∧ ∀ i < τ'.count, Orderly (τ'.thread i) := by
    rintro l τ τ' ⟨hτ, ht⟩ hl ⟨hroom, hright⟩
    refine ⟨hτ.step hl, fun i hi => ?_⟩
    rw [(hτ.frame_of_step hl).count] at hi
    exact orderly_step hi (ht i hi) hl hroom hright
  have hiff : ∀ l τ τ', (τ.Regular ∧ ∀ i < τ.count, Orderly (τ.thread i)) →
      machine.step l τ = .ok τ' → (τ.RoomToQueue l τ' ∧ τ.DeltasRight l τ' ↔ τ'.WorkExact) := by
    rintro l τ τ' ⟨hτ, ht⟩ hl
    have hcount := (hτ.frame_of_step hl).count
    constructor
    · intro hcond i hi
      obtain ⟨hw, ht', -⟩ := (hstep l τ τ' ⟨hτ, ht⟩ hl hcond).2 i hi
      exact hw.workExact ht'
    · intro hexact
      constructor
      · intro i hi hm hq
        exact room_of_step hi (ht i hi).work hl (hexact i (hcount.symm ▸ hi)) hm hq
      · rintro i env rfl hi
        rcases thread_of_step hl i with ⟨env', t, os, he, -, hstep, rfl, -⟩ | ⟨hno, -⟩
        · cases he
          exact Thread.punctual_of_turn (ht i hi).work (ht i hi).fresh (Thread.step_turn hstep)
            (hexact i (hcount.symm ▸ hi))
        · exact absurd (hno env rfl) (by omega)
  rw [Transition.System.always_iff_along,
    Transition.System.along_iff_of_invariant hiff hstep ⟨h₀.regular, ht₀⟩]
  exact ⟨fun h => ⟨fun i hi => (ht₀ i hi).work.workExact (ht₀ i hi).inTime, h⟩, fun h => h.2⟩

/-- The program is started, a `<stop />` comes in a later pass, and the next one handles it. -/
def stopped : List Label :=
  List.replicate 9 (.thread 0 fun _ => {}) ++ [.stop 0 (str "sleeper") 5] ++
    List.replicate 9 (.thread 0 fun _ => { utc := 5 })

/-- The one schedule has room, and its times are near the clock. -/
def Near (σ : Process) (_ : Label) (_ : Process) : Prop :=
  let sch := (σ.thread 0).s.schedule
  σ.count = 1 ∧ sch.units.length < sch.capacity ∧ ∀ x ∈ (σ.thread 0).marking.toList,
    ∀ wu ∈ sch.units ++ sch.passStart, wu.delta x.1 ≤ 0 ↔ wu.tAt ≤ x.1

instance (σ : Process) (l : Label) (σ' : Process) : Decidable (σ.Near l σ') :=
  inferInstanceAs (Decidable (_ ∧ _ ∧ _))

theorem Near.orderly (h : σ.Near l σ') : σ.RoomToQueue l σ' ∧ σ.DeltasRight l σ' := by
  obtain ⟨hcount, hroom, hright⟩ := h
  constructor
  · intro i hi _ _
    obtain rfl : i = 0 := by omega
    exact hroom
  · rintro i env - hi now wui hm
    obtain rfl : i = 0 := by omega
    have hright := hright (now, wui) (Option.mem_toList.2 hm)
    constructor
    · exact fun wu hwu _ => (hright wu (List.mem_append_left _ (List.mem_of_getElem? hwu))).1
    · exact fun _ wu hwu _ => (hright wu (List.mem_append_right _ hwu)).2

theorem work_exact_iff_sleeper : ∃ σ, machine.exec stopped (.configured [.sleeper]) = .ok σ ∧
    (σ.thread 0).s.schedule.handled.map (fun h => (h.1.wType, h.2)) =
      [(.runProg, 0), (.endProg, 5)] ∧
    machine.Always WorkExact stopped (.configured [.sleeper]) := by
  have hnear : machine.Along Near stopped (.configured [.sleeper]) := by decide
  refine ⟨_, rfl, by decide, (work_exact_iff sleeper_initial stopped).1 ?_⟩
  exact hnear.mono fun _ _ _ => Near.orderly

/-! Twenty start units fill the vector; the home directory of their program is missing. -/

def homeless : SchedulerConfig where
  programs := [{ name := str "sleeper", seq := [str "/bin/sleep 10"], home := str "/missing" }]
  init := List.replicate 20 (.runProg, 0, 0)

/-- The first pass begins and takes up the first unit. -/
def overfull : List Label := List.replicate 2 (.thread 0 fun _ => { checkDir := fun _ => false })

/-- A start unit for the least time there is; one second after the epoch its difference is
positive. -/
def ancient : SchedulerConfig where
  programs := [{ name := str "sleeper", seq := [str "/bin/sleep 10"] }]
  init := [(.runProg, -9223372036854775808, 0)]

/-- A first pass over it. -/
def late : List Label := List.replicate 4 (.thread 0 fun _ => { utc := 1 })

theorem work_exact_fails : (Process.configured [homeless]).Initial ∧
    ¬machine.Always WorkExact overfull (.configured [homeless]) ∧
    (Process.configured [ancient]).Initial ∧
    ¬machine.Always WorkExact late (.configured [ancient]) := by
  refine ⟨configured_initial (List.forall_mem_singleton.2 ⟨by simp [homeless], by simp [homeless]⟩),
    fun h => ?_,
    configured_initial (List.forall_mem_singleton.2 ⟨by simp [ancient], by simp [ancient]⟩),
    fun h => ?_⟩
  · obtain ⟨σ, hσ, hcount, hm, hcap, -⟩ : ∃ σ,
        machine.exec overfull (.configured [homeless]) = .ok σ ∧ σ.count = 1 ∧
        (σ.thread 0).marking = some (0, ⟨1, 20⟩) ∧ (σ.thread 0).s.schedule.capacity = 40 ∧
        machine.step (.thread 0 fun _ => {}) σ = .error .undefined :=
      ⟨_, rfl, rfl, rfl, rfl, rfl⟩
    have hall := Transition.System.always_iff_prefixes.1 h _ List.prefix_rfl σ hσ
    have hvalid := (hall 0 (by omega)).valid _ _ hm
    rw [hcap] at hvalid
    exact absurd hvalid (by decide)
  · obtain ⟨σ, hσ, hcount, hpassed, hstart, hunits⟩ : ∃ σ,
        machine.exec late (.configured [ancient]) = .ok σ ∧ σ.count = 1 ∧
        (σ.thread 0).passed = some 1 ∧
        (σ.thread 0).s.schedule.passStart = [⟨0, .runProg, -9223372036854775808, some 0⟩] ∧
        (σ.thread 0).s.schedule.units = [⟨0, .runProg, -9223372036854775808, some 0⟩] :=
      ⟨_, rfl, rfl, rfl, rfl, rfl⟩
    have hall := Transition.System.always_iff_prefixes.1 h _ List.prefix_rfl σ hσ
    refine (hall 0 (by omega)).cleared 1 hpassed _ (hstart ▸ List.mem_singleton_self _)
      (.inl (by decide)) (hunits ▸ List.mem_singleton_self _)

end Process

end Peter
