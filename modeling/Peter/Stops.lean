import Peter.Runs

/-!
# Deliberate stops

A `WT_END_PROG` unit sends the stop signal of a program, but sets its `stop_mode` to 0, not 1.  So
`stop_mode` is 0 in every state, and the reaper takes the death for a crash
(`stop_stays_iff`).
-/

namespace Peter

/-- The `EVT_CRASH` events of a program. -/
def crashesIn (log : List Event) (p : ProgPtr) : ℕ :=
  log.countP fun ev => ev.eventType = .crash ∧ ev.program = p

theorem crashesIn_aboutProcess (log : List Event) (p : ProgPtr) :
    crashesIn (log.filter Event.aboutProcess) p = crashesIn log p := by
  refine countP_aboutProcess (fun ev h => ?_) log
  simp only [Event.aboutProcess, decide_eq_true_eq] at h ⊢
  tauto

@[simp] theorem crashesIn_append (l l' : List Event) (p : ProgPtr) :
    crashesIn (l ++ l') p = crashesIn l p + crashesIn l' p := List.countP_append

theorem wifsignaled_of_diedOfStop {c : Child} (h : c.diedOfStop) :
    wifsignaled (c.status.getD 0) := by
  unfold Child.diedOfStop at h
  cases hs : c.status with
  | none => simp [hs] at h
  | some status =>
    rw [hs, Bool.and_eq_true] at h
    exact h.1

namespace Process

variable {σ₀ σ σ' : Process} {l : Label}

/-- The reaper of scheduler `i` is about to get a process of program `p` that died of the stop
signal of a `WT_END_PROG` unit. -/
def ReapsStopped (σ : Process) (l : Label) (i : ℕ) (p : ProgPtr) : Prop :=
  ∃ env c, l = .thread i env ∧ i < σ.count ∧ (σ.thread i).inLoop ∧
    (σ.thread i).reaps (env 0) σ.os = some c ∧ (σ.thread i).s.running c.pid = some p ∧
    c.diedOfStop

/-- What a stop should be, of one step: such a death is not logged as a crash, and the program is
neither started nor scheduled to start. -/
def StopStays (σ : Process) (l : Label) (σ' : Process) : Prop :=
  ∀ i p, σ.ReapsStopped l i p →
    crashesIn (σ'.thread i).s.elist p = crashesIn (σ.thread i).s.elist p ∧
    ((σ'.thread i).s.prog p).starts = ((σ.thread i).s.prog p).starts ∧
    ∀ wu ∈ (σ'.thread i).s.schedule.units, wu.wType = .runProg → wu.program = some p →
      wu ∈ (σ.thread i).s.schedule.units

/-- The death of a stopped process is logged as a crash. -/
theorem Regular.crash (hσ : σ.Regular) (h : machine.step l σ = .ok σ') {i : ℕ} {p : ProgPtr}
    (hstop : σ.ReapsStopped l i p) :
    crashesIn (σ'.thread i).s.elist p = crashesIn (σ.thread i).s.elist p + 1 := by
  obtain ⟨env, c, rfl, hi, hloop, hreap, hrun, hdied⟩ := hstop
  obtain ⟨-, es, hes, hexec⟩ := step_entries hσ.self h
  have hcrash : ∀ {ev}, (σ.thread i).Logs c p ev → ∃ now,
      ev = some ⟨now, .crash, p, c.status.getD 0⟩ := by
    intro ev hev
    obtain ⟨now, rfl⟩ := hev hloop (hσ.stopMode i hi p)
    exact ⟨now, by rw [deathType, if_pos (wifsignaled_of_diedOfStop hdied)]⟩
  rw [← crashesIn_aboutProcess (σ'.thread i).s.elist, ← crashesIn_aboutProcess (σ.thread i).s.elist]
  show crashesIn (σ'.books.log i) p = crashesIn (σ.books.log i) p + 1
  have hbury : ∀ {q ev b}, supervisor.step (.bury i c q ev) σ.books = .ok b →
      q = p ∧ b.log i = σ.books.log i ++ ev.toList := by
    intro q ev b hb
    obtain ⟨hk, rfl⟩ := step_bury.1 hb
    refine ⟨Option.some.inj (hk.2.1.symm.trans hrun), by simp [Books.bury]⟩
  cases hes with
  | quiet hl => exact absurd (hl i env rfl) (by omega)
  | thread _ hs =>
    cases hs with
    | quiet hcalm => exact absurd (hcalm.reaps.symm.trans hreap) (by simp)
    | signal hcalm => exact absurd (hcalm.reaps.symm.trans hreap) (by simp)
    | expire hcalm => exact absurd (hcalm.reaps.symm.trans hreap) (by simp)
    | start hat => exact absurd (hat.reaps.symm.trans hreap) (by simp)
    | refused hat => exact absurd (hat.reaps.symm.trans hreap) (by simp)
    | stray hreap' =>
      cases hreap.symm.trans hreap'
      obtain ⟨b, hb, -⟩ := Transition.System.exec_cons_eq_ok.1 hexec
      have hk := (step_lose.1 hb).1
      exact absurd (hk.2.symm.trans hrun) (by simp)
    | death hreap' hev =>
      cases hreap.symm.trans hreap'
      obtain ⟨b, hb, hnil⟩ := Transition.System.exec_cons_eq_ok.1 hexec
      obtain ⟨rfl, hlog⟩ := hbury hb
      obtain ⟨now, rfl⟩ := hcrash hev
      rw [← Except.ok.inj hnil, hlog, crashesIn_append]
      simp [crashesIn]
    | restart hreap' hev =>
      cases hreap.symm.trans hreap'
      obtain ⟨b, hb, hexec⟩ := Transition.System.exec_cons_eq_ok.1 hexec
      obtain ⟨b₂, hfork, hnil⟩ := Transition.System.exec_cons_eq_ok.1 hexec
      obtain ⟨rfl, hlog⟩ := hbury hb
      obtain ⟨now, rfl⟩ := hcrash hev
      obtain ⟨-, rfl⟩ := step_fork.1 hfork
      rw [← Except.ok.inj hnil]
      simp [Books.fork, hlog, crashesIn]

/-- Stops stay stops in exactly the runs in which no stopped process is ever reaped. -/
theorem stop_stays_iff (h₀ : σ₀.Initial) (ls : List Label) :
    machine.Along StopStays ls σ₀ ↔
      machine.Along (fun σ l _ => ∀ i p, ¬σ.ReapsStopped l i p) ls σ₀ := by
  refine Transition.System.along_iff_of_invariant (fun l σ σ' hσ h => ?_)
    (fun l σ σ' hσ h _ => hσ.step h) h₀.regular
  constructor
  · intro hstays i p hstop
    have hsame := (hstays i p hstop).1
    rw [hσ.crash h hstop] at hsame
    omega
  · exact fun hnone i p hstop => absurd hstop (hnone i p)

/-- The program is started and stopped by hand, and its process ends with an exit code of 1 on the
stop signal and is reaped. -/
def startAndExit : List Label :=
  List.replicate 8 (.thread 0 fun _ => {}) ++ [.stop 0 (str "sleeper") 0] ++
    List.replicate 2 (.thread 0 fun _ => {}) ++ [.dies 1 256] ++
    List.replicate 6 (.thread 0 fun _ => {})

/-- No child is dead of a stop signal. -/
def NoneStopped (σ : Process) (_ : Label) (_ : Process) : Prop :=
  ∀ c ∈ σ.os.children, c.diedOfStop = false

instance (σ : Process) (l : Label) (σ' : Process) : Decidable (σ.NoneStopped l σ') :=
  inferInstanceAs (Decidable (∀ c ∈ σ.os.children, c.diedOfStop = false))

theorem NoneStopped.not_reapsStopped (h : σ.NoneStopped l σ') (i : ℕ) (p : ProgPtr) :
    ¬σ.ReapsStopped l i p := by
  rintro ⟨env, c, -, -, -, hreap, -, hstop⟩
  obtain ⟨pid, -, hc⟩ := reaps_mem hreap
  rw [h c (OS.mem_zombies.1 hc).1] at hstop
  cases hstop

theorem stop_stays_iff_sleeper :
    (∃ σ, machine.exec startAndExit (.configured [.sleeper]) = .ok σ ∧ σ.os.children = [] ∧
      (σ.thread 0).s.elist.map Event.eventType = [.start, .stop, .ended]) ∧
    machine.Along StopStays startAndExit (.configured [.sleeper]) := by
  have hnone : machine.Along NoneStopped startAndExit (.configured [.sleeper]) := by decide
  refine ⟨⟨_, rfl, rfl, by decide⟩, (stop_stays_iff sleeper_initial startAndExit).2 ?_⟩
  exact hnone.mono fun _ _ _ h => h.not_reapsStopped

/-- The program is started and stopped by hand, and its process dies of the stop signal. -/
def startAndStop : List Label :=
  List.replicate 8 (.thread 0 fun _ => {}) ++ [.stop 0 (str "sleeper") 0] ++
    List.replicate 2 (.thread 0 fun _ => {}) ++ [.dies 1 15] ++
    List.replicate 4 (.thread 0 fun _ => {})

theorem stop_stays_fails : ¬∀ (σ₀ : Process) (ls : List Label), σ₀.Initial →
    machine.Along StopStays ls σ₀ := by
  intro h
  obtain ⟨σ, σ', hσ, hstep, hstop, hcrash⟩ : ∃ σ σ',
      machine.exec startAndStop (.configured [.sleeper]) = .ok σ ∧
      machine.step (.thread 0 fun _ => {}) σ = .ok σ' ∧
      σ.ReapsStopped (.thread 0 fun _ => {}) 0 0 ∧
      crashesIn (σ'.thread 0).s.elist 0 ≠ crashesIn (σ.thread 0).s.elist 0 :=
    ⟨_, _, rfl, rfl, ⟨_, _, rfl, by decide, rfl, rfl, rfl, by decide⟩, by decide⟩
  exact hcrash ((h _ (startAndStop ++ [.thread 0 fun _ => {}]) sleeper_initial).at_step hσ hstep
    0 0 hstop).1

end Process

end Peter
