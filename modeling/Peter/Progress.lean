import Peter.Termination

/-!
# No unit waits for ever

A unit in the schedule is handled by the pass after this one at the latest, whatever else is queued:
a pass goes over the units it finds and over what is appended on the way.  What may hold it up are
the processes that the reaper takes on its way to the next pass, which may start again and again,
so that the bound counts the processes started (`unit_handled`).
-/

namespace Peter

namespace Thread

variable {t t' : Thread} {os os' : OS} {env : ℕ → Env} {P : WorkUnit → Bool}

/-- The unit that the first pass takes up is handled. -/
theorem done_of_step {now : ℤ} {wui : Iter} {wu : WorkUnit} (h : t.step env os = .ok (t', os'))
    (hpc : t.pc = .firstPass now wui) (hwu : t.s.schedule.units[wui.pos]? = some wu)
    (hdue : wu.Due now) : wu ∈ t'.s.schedule.done := by
  obtain ⟨w, hw, hs⟩ := firstPass_of_step h hpc hwu
  rw [hs]
  rcases World.handleUnit_schedule hw with ⟨hnot, -⟩ | ⟨-, -, hsch⟩ | ⟨-, -, hsch⟩
  · exact absurd hdue hnot
  · rw [hsch]
    simp [Schedule.done, Schedule.markUsed]
  · rw [hsch]
    simp [Schedule.done, Schedule.markUsed]

/-- The steps to the end of the pass in which the unit comes up. -/
def toUnit (P : WorkUnit → Bool) (t : Thread) : ℕ := t.toLoop + t.nextPass P

theorem toUnit_le (P : WorkUnit → Bool) (t : Thread) :
    t.toUnit P ≤ 2 * t.s.schedule.units.length + 6 * t.s.programs.length + 7 := by
  have hnext := t.nextPass_le P
  rw [toUnit]
  cases hpc : t.pc <;> simp only [toLoop, hpc] <;> omega

theorem left_eq_toUnit (hin : t.inLoop) :
    t.left P = t.toUnit P + (10002 * t.s.programs.length + 21005) := by
  rw [left, toUnit]
  cases hpc : t.pc <;> simp only [inLoop, hpc, Bool.false_eq_true] at hin <;>
    simp only [shutdownLeft] <;> omega

end Thread

namespace Process

open Transition.System

variable {σ₀ σ σ' : Process} {l : Label} {ls : List Label} {i : ℕ} {wu : WorkUnit}

theorem done_of_step (h : machine.step l σ = .ok σ') (hdone : wu ∈ (σ.thread i).s.schedule.done) :
    wu ∈ (σ'.thread i).s.schedule.done := by
  rcases thread_of_step h i with ⟨env, t, os, -, -, hstep, rfl, -⟩ | ⟨-, s, hs, he⟩
  · exact (((Thread.step_turn hstep).handled.map Prod.fst).subset) hdone
  · rw [he]
    cases hs <;> exact hdone

/-- Whenever thread `i` begins a pass, the unit is due. -/
def DueInPass (i : ℕ) (wu : WorkUnit) (σ : Process) (l : Label) (_ : Process) : Prop :=
  ∀ env, l = .thread i env → (σ.thread i).pc = .loop → wu.Due (env 0).utc

/-- Thread `i` takes the unit up. -/
def TakesUp (i : ℕ) (wu : WorkUnit) (σ : Process) (l : Label) (_ : Process) : Prop :=
  ∃ env now wui, l = .thread i env ∧ i < σ.count ∧ (σ.thread i).pc = .firstPass now wui ∧
    (σ.thread i).s.schedule.units[wui.pos]? = some wu ∧ wu.Due now

/-- A unit stays in the schedule until it is taken up. -/
theorem queued_of_step (h : machine.step l σ = .ok σ')
    (hwu : wu ∈ (σ.thread i).s.schedule.units) (hlive : wu.live) :
    wu ∈ (σ'.thread i).s.schedule.units ∨ TakesUp i wu σ l σ' := by
  rcases thread_of_step h i with ⟨env, t, os, rfl, hi, hstep, rfl, -⟩ | ⟨-, s, hs, he⟩
  · rcases Thread.queued_of_step hstep hwu hlive with hwu' | ⟨now, wui, hpc, hwu', hdue⟩
    · exact .inl hwu'
    · exact .inr ⟨env, now, wui, rfl, hi, hpc, hwu', hdue⟩
  · rw [he]
    cases hs with
    | none => exact .inl hwu
    | off => exact .inl hwu
    | unit => exact .inl (List.mem_append_left _ hwu)

theorem done_of_takesUp (h : machine.step l σ = .ok σ') (ht : TakesUp i wu σ l σ') :
    wu ∈ (σ'.thread i).s.schedule.done := by
  obtain ⟨env, now, wui, rfl, hi, hpc, hwu, hdue⟩ := ht
  rcases thread_of_step h i with ⟨env', t, os, he, -, hstep, rfl, -⟩ | ⟨hno, -⟩
  · cases he
    exact Thread.done_of_step hstep hpc hwu hdue
  · exact absurd (hno env rfl) (by omega)

/-- What a step costs the unit that is not taken up in it. -/
theorem Regular.toUnit_of_step (hσ : σ.Regular) (h : machine.step l σ = .ok σ') (hi : i < σ.count)
    (hl : DueInPass i wu σ l σ') (hwu : wu ∈ (σ.thread i).s.schedule.units)
    (hnot : ¬TakesUp i wu σ l σ') (hin : (σ.thread i).inLoop) (hin' : (σ'.thread i).inLoop) :
    (if l.own i then 1 else 0) +
        ((σ'.thread i).toUnit (fun x => x = wu) + σ'.os.children.length) +
        (σ.os.forks + 2 * (σ.thread i).s.schedule.added.length) ≤
      (σ.thread i).toUnit (fun x => x = wu) + σ.os.children.length +
        (σ'.os.forks + 2 * (σ'.thread i).s.schedule.added.length) := by
  have hprog := ((hσ.frame_of_step h).scheduler i).programs
  have hpc : (σ.thread i).pc ≠ .returned := by
    intro hpc
    simp [Thread.inLoop, hpc] at hin
  have hleft := hσ.left_of_step (P := fun x => x = wu) h hi
    (fun env he => .inr (.inr ⟨wu, hwu, decide_eq_true rfl, hl env he⟩)) ?_ hpc
  · rw [Thread.left_eq_toUnit hin, Thread.left_eq_toUnit hin', hprog] at hleft
    omega
  · rintro env rfl now wui x hpc' hx hxwu hdue
    obtain rfl : x = wu := of_decide_eq_true hxwu
    exact absurd ⟨env, now, wui, rfl, hi, hpc', hx, hdue⟩ hnot

/-- A unit that is due whenever a pass begins is taken up within so many steps of the thread, if the
scheduler is still in its main loop after them. -/
theorem takesUp_of_turns {pre : List Label} (h₀ : σ₀.Initial) (hpre : machine.exec pre σ₀ = .ok σ)
    (hi : i < σ₀.count) (hwu : wu ∈ (σ.thread i).s.schedule.units) (hlive : wu.live)
    (hdue : machine.Along (DueInPass i wu) ls σ) (h : machine.exec ls σ = .ok σ')
    (hin : (σ'.thread i).inLoop)
    (hturns : 2 * (σ.thread i).s.schedule.units.length +
      6 * (σ.thread i).s.programs.length + 7 + σ.os.children.length +
      (σ'.os.forks - σ.os.forks) +
      2 * ((σ'.thread i).s.schedule.added.length - (σ.thread i).s.schedule.added.length) <
        turns i ls) :
    machine.Sometime (TakesUp i wu) ls σ σ' := by
  by_cases hnone : machine.Along (fun τ l τ' => ¬TakesUp i wu τ l τ') ls σ
  case neg => exact sometime_of_not_along hnone h
  have hle := (σ.thread i).toUnit_le (fun x => x = wu)
  have hout : (σ'.thread i).inLoop = false := by
    refine exec_done_along
      (fun σ => (σ.thread i).toUnit (fun x => x = wu) + σ.os.children.length)
      (fun σ => σ.os.forks + 2 * (σ.thread i).s.schedule.added.length) (Label.own i)
      (I := fun σ => σ.Regular ∧ σ.count = σ₀.count ∧ wu ∈ (σ.thread i).s.schedule.units)
      (D := fun σ => (σ.thread i).inLoop = false)
      (fun l σ σ' hσ h hl => ⟨hσ.1.step h, (hσ.1.frame_of_step h).count.trans hσ.2.1,
        (queued_of_step h hσ.2.2 hlive).resolve_right hl.2⟩)
      (fun l σ σ' _ h _ hd => not_inLoop_of_step h hd)
      (fun l σ σ' hσ h hl hnot hnot' => ?_)
      ⟨regular_run h₀ hpre, h₀.count_of_run hpre, hwu⟩ (hdue.and hnone) h ?_
    · exact hσ.1.toUnit_of_step h (hσ.2.1.symm ▸ hi) hl.1 hσ.2.2 hl.2 (eq_true_of_ne_false hnot)
        (eq_true_of_ne_false hnot')
    · rw [turns] at hturns
      omega
  exact absurd (hout.symm.trans hin) Bool.false_ne_true

/-- A unit that is due whenever a pass begins is handled, or its scheduler goes down, within so
many steps of the thread, in any interleaving with the other threads, deaths and commands. -/
theorem unit_handled {pre : List Label} (h₀ : σ₀.Initial) (hpre : machine.exec pre σ₀ = .ok σ)
    (hi : i < σ₀.count) (hwu : wu ∈ (σ.thread i).s.schedule.units) (hlive : wu.live)
    (hdue : machine.Along (DueInPass i wu) ls σ) (h : machine.exec ls σ = .ok σ')
    (hturns : 2 * (σ.thread i).s.schedule.units.length +
      6 * (σ.thread i).s.programs.length + 7 + σ.os.children.length +
      (σ'.os.forks - σ.os.forks) +
      2 * ((σ'.thread i).s.schedule.added.length - (σ.thread i).s.schedule.added.length) <
        turns i ls) :
    wu ∈ (σ'.thread i).s.schedule.done ∨ (σ'.thread i).inLoop = false := by
  by_cases hin : (σ'.thread i).inLoop
  case neg => exact .inr (eq_false_of_ne_true hin)
  obtain ⟨ls₁, l, ls₂, τ, τ', -, -, hl, h₂, ht⟩ :=
    takesUp_of_turns h₀ hpre hi hwu hlive hdue h hin hturns
  exact .inl (exec_invariant (fun _ _ _ hdone hl => done_of_step hl hdone)
    (done_of_takesUp hl ht) h₂)

theorem unit_handled_sleeper : ∃ σ wu,
    machine.exec (List.replicate 20 (.thread 0 fun _ => {})) (.configured [.sleeper]) = .ok σ ∧
    wu ∈ ((Process.configured [.sleeper]).thread 0).s.schedule.units ∧
    (wu ∈ (σ.thread 0).s.schedule.done ∨ (σ.thread 0).inLoop = false) := by
  obtain ⟨σ, h, hturns⟩ : ∃ σ,
      machine.exec (List.replicate 20 (.thread 0 fun _ => {})) (.configured [.sleeper]) = .ok σ ∧
      2 * ((Process.configured [.sleeper]).thread 0).s.schedule.units.length +
        6 * ((Process.configured [.sleeper]).thread 0).s.programs.length + 7 +
        (Process.configured [.sleeper]).os.children.length +
        (σ.os.forks - (Process.configured [.sleeper]).os.forks) +
        2 * ((σ.thread 0).s.schedule.added.length -
          ((Process.configured [.sleeper]).thread 0).s.schedule.added.length) <
        turns 0 (List.replicate 20 (.thread 0 fun _ => {})) :=
    ⟨_, rfl, by decide⟩
  have hwu : ⟨0, .runProg, 0, some 0⟩ ∈
      ((Process.configured [.sleeper]).thread 0).s.schedule.units := by decide
  have hpre : machine.exec [] (Process.configured [.sleeper]) = .ok (.configured [.sleeper]) := rfl
  refine ⟨σ, _, h, hwu, unit_handled sleeper_initial hpre (by decide) hwu rfl ?_ h hturns⟩
  refine along_of_forall (fun l hl σ σ' env he _ => ?_) _
  rw [List.eq_of_mem_replicate hl] at he
  cases he
  decide

end Process

end Peter
