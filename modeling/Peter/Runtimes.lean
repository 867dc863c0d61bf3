import Peter.Deeds
import Peter.Exits

/-!
# Run times

`run` notes the time of a start from a new reading of the clock.  The reaper of the main loop notes
the time of a death from the reading at the start of its pass, the reapers of the shutdown from the
one at the start of the thread.  So a run time is negative when a process ends that was started
after that reading (`run_times_iff`).
-/

namespace Peter

/-! ## Readings of the clock -/

/-- `utc()` returns `t` somewhere in the step. -/
def Label.Reads (t : ℤ) : Label → Prop
  | .thread _ env => ∃ k, (env k).utc = t
  | _ => False

/-- The clock does not go back from one reading to the next. -/
def Rising (ls : List Label) : Prop :=
  (∀ i env, .thread i env ∈ ls → ∀ k k', k ≤ k' → (env k).utc ≤ (env k').utc) ∧
    ls.Pairwise fun l l' => ∀ t t', l.Reads t → l'.Reads t' → t ≤ t'

/-- The reading that the reaper copies to `t_end`. -/
def Thread.reapClock (t : Thread) : ℤ := match t.pc with
  | .poll now _ _ => now
  | _ => t.now

theorem Thread.reapClock_of_not_inLoop {t : Thread} (h : t.inLoop = false) :
    t.reapClock = t.now := by
  unfold inLoop at h
  unfold reapClock
  split
  · next hpc => simp [hpc] at h
  · rfl

namespace Thread

variable {t : Thread} {os : OS} {env : ℕ → Env} {w' : World}

/-- What a deed does to the times: the program whose child is reaped has ended at the clock of the
reaper, or runs again; of the others one may have been started. -/
theorem Deed.times (h : t.Deed env os w') :
    (∃ c p, t.reaps (env 0) os = some c ∧ t.s.running c.pid = some p ∧
      (∀ q, q ≠ p → (w'.prog q).life = (t.s.prog q).life) ∧
      ((w'.prog p).tEnd = t.reapClock ∧ (w'.prog p).tStart = (t.s.prog p).tStart ∧
          (w'.prog p).pid = 0 ∨
        (w'.prog p).tEnd = 0 ∧ (w'.prog p).pid ≠ 0)) ∨
    (∀ c p, t.reaps (env 0) os = some c → t.s.running c.pid ≠ some p) ∧
      ∀ q, (w'.prog q).tEnd = 0 ∨ (w'.prog q).tEnd = (t.s.prog q).tEnd ∧
        (w'.prog q).tStart = (t.s.prog q).tStart := by
  have hnone : t.reaps (env 0) os = none →
      ∀ c p, t.reaps (env 0) os = some c → t.s.running c.pid ≠ some p := by
    intro hnone c p hc
    exact absurd (hnone.symm.trans hc) (by simp)
  have hkeep : ∀ {q}, (w'.prog q).life = (t.s.prog q).life → (w'.prog q).tEnd = 0 ∨
      (w'.prog q).tEnd = (t.s.prog q).tEnd ∧ (w'.prog q).tStart = (t.s.prog q).tStart :=
    fun hlife => .inr ⟨congrArg Life.tEnd hlife, congrArg Life.tStart hlife⟩
  cases h with
  | idle hreap hs => exact .inr ⟨hnone hreap, fun q => hkeep (hs.life q)⟩
  | signal hreap hs => exact .inr ⟨hnone hreap, fun q => hkeep (hs.life q)⟩
  | @expire now pri p sig hpc _ _ ht =>
    refine .inr ⟨hnone (by simp [reaps, waitsFor, hpc]), fun q => ?_⟩
    by_cases hq : q = p
    · subst hq
      exact .inr ⟨congrArg Life.tEnd ht.self, congrArg Life.tStart ht.self⟩
    · exact hkeep (ht.other q hq)
  | @start p hat hs =>
    refine .inr ⟨hnone hat.reaps, fun q => ?_⟩
    obtain ⟨hint, ht⟩ := hs.turns
    by_cases hq : q = p
    · subst hq
      exact .inl (congrArg Life.tEnd ht.self)
    · exact hkeep (ht.other q hq)
  | @death now pri pid c p w₁ w₂ hpc hreap hp _ hbury hagain hw =>
    have hprog : ∀ q, w'.prog q = w₂.prog q := fun q => congrArg (fun w => w.s.prog q) hw
    refine .inl ⟨c, p, hreap, hp, fun q hq => ?_, ?_⟩
    · rw [hprog, hagain.other hq]
      exact hbury.other q hq
    · rw [hprog]
      rcases hagain with hs | ⟨_, hs⟩
      · refine .inl ⟨?_, (hs.tStart p).trans (congrArg Life.tStart hbury.self),
          (hs.pid p).trans (congrArg Life.pid hbury.self)⟩
        rw [hs.tEnd p, reapClock, hpc]
        exact congrArg Life.tEnd hbury.self
      · obtain ⟨hint, ht⟩ := hs.turns
        exact .inr ⟨congrArg Life.tEnd ht.self, hs.pid_ne⟩
  | @bury c p hloop hreap hp ht =>
    refine .inl ⟨c, p, hreap, hp, ht.other, .inl ⟨?_, congrArg Life.tStart ht.self,
      congrArg Life.pid ht.self⟩⟩
    rw [reapClock_of_not_inLoop hloop]
    exact congrArg Life.tEnd ht.self
  | stray hreap hp hs =>
    refine .inr ⟨fun c p hc hp' => ?_, fun q => hkeep (hs.life q)⟩
    rw [hreap, Option.some.injEq] at hc
    subst hc
    exact absurd (hp.symm.trans hp') (by simp)

/-- A program is started at a reading of the clock. -/
theorem Deed.tStart (h : t.Deed env os w') (q : ProgPtr) :
    (w'.prog q).tStart = (t.s.prog q).tStart ∨ ∃ k, (env k).utc = (w'.prog q).tStart := by
  have hstarts : ∀ {p w w'} {e : Env}, World.Starts p e w w' →
      (w'.prog q).tStart = (w.prog q).tStart ∨ e.utc = (w'.prog q).tStart := by
    intro p w w' e hs
    obtain ⟨hint, ht⟩ := hs.turns
    by_cases hq : q = p
    · subst hq
      exact .inr (congrArg Life.tStart ht.self).symm
    · exact .inl (congrArg Life.tStart (ht.other q hq))
  cases h with
  | idle _ hs => exact .inl (hs.tStart q)
  | signal _ hs => exact .inl (hs.tStart q)
  | expire _ _ _ ht => exact .inl (ht.keeps Life.tStart (fun _ => rfl) q)
  | start _ hs => exact (hstarts hs).imp_right fun h => ⟨0, h⟩
  | @death now pri pid c p w₁ w₂ _ _ _ _ hbury hagain hw =>
    have hprog : w'.prog q = w₂.prog q := congrArg (fun w => w.s.prog q) hw
    have hkept : (w₁.prog q).tStart = (t.s.prog q).tStart :=
      hbury.keeps Life.tStart (fun _ => rfl) q
    rw [hprog, ← hkept]
    rcases hagain with hs | ⟨k, hs⟩
    · exact .inl (hs.tStart q)
    · exact (hstarts hs).imp_right fun h => ⟨k + 1, h⟩
  | bury _ _ _ ht => exact .inl (ht.keeps Life.tStart (fun _ => rfl) q)
  | stray _ _ hs => exact .inl (hs.tStart q)

end Thread

namespace Process

variable {σ₀ σ σ' : Process} {l : Label}

/-- No program ended before it was started. -/
def Ordered (σ : Process) : Prop := ∀ i < σ.count, ∀ p, ((σ.thread i).s.prog p).tEnd ≠ 0 →
  ((σ.thread i).s.prog p).tStart ≤ ((σ.thread i).s.prog p).tEnd

/-- A scheduler reaps the process of a program that was started after the reading that its reaper
copies, and that does not run again at once. -/
def ReapsStale (σ : Process) (l : Label) : Prop := ∃ i env c p, l = .thread i env ∧ i < σ.count ∧
  (σ.thread i).reaps (env 0) σ.os = some c ∧ (σ.thread i).s.running c.pid = some p ∧
  (σ.thread i).reapClock < ((σ.thread i).s.prog p).tStart ∧ (σ.thread i).reapClock ≠ 0 ∧
  ¬(σ.thread i).Starts env σ.os

/-! ## One step -/

theorem ordered_of_life {p q : Program} (h : q.life = p.life)
    (hp : p.tEnd ≠ 0 → p.tStart ≤ p.tEnd) : q.tEnd ≠ 0 → q.tStart ≤ q.tEnd := by
  have hstart : q.tStart = p.tStart := congrArg Life.tStart h
  have hend : q.tEnd = p.tEnd := congrArg Life.tEnd h
  rwa [hstart, hend]

theorem Regular.ordered_iff (hσ : σ.Regular) (hord : σ.Ordered)
    (h : machine.step l σ = .ok σ') : σ'.Ordered ↔ ¬σ.ReapsStale l := by
  have hcount := (hσ.frame_of_step h).count
  constructor
  · rintro hord' ⟨i, env, c, p, rfl, hi, hreap, hp, hlt, hne, hno⟩
    have hlate := hord' i (hcount ▸ hi) p
    rcases hσ.deed h hi with ⟨env', hl, hstep, hdeed⟩ | ⟨hl, -⟩
    case inr => exact hl env rfl
    cases hl
    have hpid : ((σ'.thread i).s.prog p).pid = 0 :=
      not_not.1 (mt (Thread.pid_of_reaps (hσ.stopMode i hi p) hreap hp hstep).1 hno)
    rcases hdeed.times with ⟨c', p', hc, hp', -, htimes⟩ | ⟨hnone, -⟩
    · cases hc.symm.trans hreap
      cases hp'.symm.trans hp
      rcases htimes with ⟨hend, hstart, -⟩ | ⟨-, hrun⟩
      · have hend' : ((σ'.thread i).s.prog p).tEnd = (σ.thread i).reapClock := hend
        have hstart' : ((σ'.thread i).s.prog p).tStart = ((σ.thread i).s.prog p).tStart := hstart
        rw [hend', hstart'] at hlate
        have := hlate hne
        omega
      · exact hrun hpid
    · exact hnone c p hreap hp
  · intro hfresh i hi p
    rw [hcount] at hi
    have hord₀ := hord i hi p
    rcases hσ.deed h hi with ⟨env, rfl, hstep, hdeed⟩ | ⟨-, hs⟩
    · rcases hdeed.times with ⟨c, q, hreap, hq, hother, htimes⟩ | ⟨-, hall⟩
      · by_cases hp : p = q
        · subst hp
          rcases htimes with ⟨hend, hstart, hpid⟩ | ⟨hend, -⟩
          · have hend' : ((σ'.thread i).s.prog p).tEnd = (σ.thread i).reapClock := hend
            have hstart' : ((σ'.thread i).s.prog p).tStart =
              ((σ.thread i).s.prog p).tStart := hstart
            rw [hend', hstart']
            intro hne
            by_contra hlt
            refine hfresh ⟨i, env, c, p, rfl, hi, hreap, hq, by omega, hne, ?_⟩
            exact mt (Thread.pid_of_reaps (hσ.stopMode i hi p) hreap hq hstep).2
              (not_not.2 hpid)
          · exact fun hne => absurd hend hne
        · exact ordered_of_life (hother p hp) hord₀
      · rcases hall p with hend | ⟨hend, hstart⟩
        · exact fun hne => absurd hend hne
        · rwa [show ((σ'.thread i).s.prog p).tEnd = _ from hend,
            show ((σ'.thread i).s.prog p).tStart = _ from hstart]
    · exact ordered_of_life (hs.life p) hord₀

/-! ## Runs -/

/-- The start of a program is kept, or is a reading of the step. -/
theorem Regular.tStart_of_step (hσ : σ.Regular) (h : machine.step l σ = .ok σ') {i : ℕ}
    (hi : i < σ.count) (p : ProgPtr) :
    ((σ'.thread i).s.prog p).tStart = ((σ.thread i).s.prog p).tStart ∨
      l.Reads ((σ'.thread i).s.prog p).tStart := by
  rcases hσ.deed h hi with ⟨env, rfl, -, hdeed⟩ | ⟨-, hs⟩
  · exact hdeed.tStart p
  · exact .inl (hs.tStart p)

theorem Regular.tStart_of_run {ls : List Label} (hσ : σ.Regular)
    (h : machine.exec ls σ = .ok σ') {i : ℕ} (hi : i < σ.count) (p : ProgPtr) :
    ((σ'.thread i).s.prog p).tStart = ((σ.thread i).s.prog p).tStart ∨
      ∃ l ∈ ls, l.Reads ((σ'.thread i).s.prog p).tStart := by
  induction ls generalizing σ with
  | nil => cases h; exact .inl rfl
  | cons l ls ih =>
    obtain ⟨τ, hτ, h⟩ := Transition.System.exec_cons_eq_ok.1 h
    have hcount := (hσ.frame_of_step hτ).count
    rcases ih (hσ.step hτ) h (hcount ▸ hi) with hkept | ⟨m, hm, hreads⟩
    · rw [hkept]
      exact (hσ.tStart_of_step hτ hi p).imp_right fun hr => ⟨l, List.mem_cons_self, hr⟩
    · exact .inr ⟨m, List.mem_cons_of_mem l hm, hreads⟩

/-- In every state of the run, no program has ended before it was started, and at a reading not
before those so far no run time is negative. -/
def RunTimes (ls : List Label) (σ₀ : Process) : Prop :=
  ∀ pre, pre <+: ls → ∀ σ, machine.exec pre σ₀ = .ok σ → ∀ i < σ.count, ∀ p,
    (((σ.thread i).s.prog p).tEnd ≠ 0 →
      ((σ.thread i).s.prog p).tStart ≤ ((σ.thread i).s.prog p).tEnd) ∧
    ∀ utc, (∀ l ∈ pre, ∀ t, l.Reads t → t ≤ utc) → 0 ≤ ((σ.thread i).s.prog p).getRuntime utc

/-- The run times are never negative in exactly the runs in which no process is reaped whose program
was started after the reading that the reaper copies. -/
theorem run_times_iff (h₀ : σ₀.Initial) (hnew : σ₀.Newborn) (ls : List Label) :
    RunTimes ls σ₀ ↔ machine.Along (fun σ l _ => ¬σ.ReapsStale l) ls σ₀ := by
  have hord₀ : σ₀.Ordered := fun i _ p hend => absurd (congrArg Life.tEnd (hnew i p)) hend
  have hsteps : machine.Along (fun _ _ σ' => σ'.Ordered) ls σ₀ ↔
      machine.Along (fun σ l _ => ¬σ.ReapsStale l) ls σ₀ :=
    Transition.System.along_iff_of_invariant (I := fun σ : Process => σ.Regular ∧ σ.Ordered)
      (fun l σ σ' hσ h => hσ.1.ordered_iff hσ.2 h)
      (fun l σ σ' hσ h hord => ⟨hσ.1.step h, hord⟩) ⟨h₀.regular, hord₀⟩
  have halways : machine.Always Ordered ls σ₀ ↔ machine.Along (fun _ _ σ' => σ'.Ordered) ls σ₀ :=
    Transition.System.always_iff_along.trans (and_iff_right hord₀)
  rw [← hsteps, ← halways, Transition.System.always_iff_prefixes]
  constructor
  · exact fun h pre hpre σ hσ i hi p => (h pre hpre σ hσ i hi p).1
  · intro h pre hpre σ hσ i hi p
    have hord := h pre hpre σ hσ i hi p
    refine ⟨hord, fun utc hutc => ?_⟩
    have hcount : σ.count = σ₀.count := h₀.count_of_run hσ
    unfold Program.getRuntime
    split_ifs with hend hstart
    · exact le_rfl
    · have hzero : ((σ₀.thread i).s.prog p).tStart = 0 := congrArg Life.tStart (hnew i p)
      rcases h₀.regular.tStart_of_run hσ (hcount ▸ hi) p with hkept | ⟨l, hl, hreads⟩
      · exact absurd (hkept.trans hzero) hstart
      · have := hutc l hl _ hreads
        omega
    · have := hord hend
      omega

/-- A pass starts the program at 5, its process dies, and the next pass reaps it at 9. -/
def longLife : List Label :=
  List.replicate 8 (.thread 0 fun _ => { utc := 5 }) ++ [.dies 1 256] ++
    List.replicate 8 (.thread 0 fun _ => { utc := 9 })

/-- The only scheduler is not at a `waitpid`, or no child of it was started after the clock of the
reaper. -/
def ReapsFresh (σ : Process) (_ : Label) (_ : Process) : Prop :=
  σ.count = 1 ∧ ((σ.thread 0).waitsFor = none ∨ ∀ c ∈ σ.os.children,
    ((σ.thread 0).s.running c.pid).all fun p =>
      ((σ.thread 0).s.prog p).tStart ≤ (σ.thread 0).reapClock)

instance (σ : Process) (l : Label) (σ' : Process) : Decidable (σ.ReapsFresh l σ') :=
  inferInstanceAs (Decidable (_ ∧ _))

theorem ReapsFresh.not_reapsStale (h : σ.ReapsFresh l σ') : ¬σ.ReapsStale l := by
  obtain ⟨hcount, hfresh⟩ := h
  rintro ⟨i, env, c, p, rfl, hi, hreap, hrun, hlt, -⟩
  obtain rfl : i = 0 := by omega
  obtain ⟨pid, hpid, hc⟩ := reaps_mem hreap
  rcases hfresh with hnone | hfresh
  · rw [hnone] at hpid
    cases hpid
  · have hle := hfresh c (OS.mem_zombies.1 hc).1
    rw [hrun, Option.all_some, decide_eq_true_eq] at hle
    omega

theorem run_times_iff_sleeper :
    (∃ σ, machine.exec longLife (.configured [.sleeper]) = .ok σ ∧
      ((σ.thread 0).s.prog 0).tStart = 5 ∧ ((σ.thread 0).s.prog 0).tEnd = 9) ∧
    RunTimes longLife (.configured [.sleeper]) := by
  have hfresh : machine.Along ReapsFresh longLife (.configured [.sleeper]) := by decide
  refine ⟨⟨_, rfl, rfl, rfl⟩, (run_times_iff sleeper_initial sleeper_newborn longLife).2 ?_⟩
  exact hfresh.mono fun _ _ _ => ReapsFresh.not_reapsStale

/-- A pass begins at 5, starts the program at 6, and reaps it. -/
def shortLife : List Label :=
  .thread 0 (fun _ => { utc := 5 }) ::
    (List.replicate 5 (.thread 0 fun _ => { utc := 6 }) ++
      [.dies 1 0, .thread 0 fun _ => { utc := 6 }])

theorem rising_shortLife : Rising shortLife := by
  constructor
  · intro i env henv
    have hconst : ∃ c : ℤ, env = fun _ => { utc := c } := by
      simp only [shortLife, List.replicate, List.cons_append, List.nil_append, List.mem_cons,
        List.not_mem_nil, Label.thread.injEq, reduceCtorEq] at henv
      rcases henv with ⟨-, h⟩ | ⟨-, h⟩ | ⟨-, h⟩ | ⟨-, h⟩ | ⟨-, h⟩ | ⟨-, h⟩ | h | ⟨-, h⟩ | h
      all_goals first | exact ⟨_, h⟩ | exact absurd h id
    obtain ⟨c, rfl⟩ := hconst
    exact fun _ _ _ => le_rfl
  · simp [shortLife, List.replicate, Label.Reads]

theorem run_times_fails : ¬∀ (σ₀ : Process) (ls : List Label), σ₀.Initial → σ₀.Newborn →
    Rising ls → RunTimes ls σ₀ := by
  intro h
  obtain ⟨σ, hσ, hcount, hend, hlt⟩ : ∃ σ, machine.exec shortLife (.configured [.sleeper]) = .ok σ ∧
      0 < σ.count ∧ ((σ.thread 0).s.prog 0).tEnd = 5 ∧ ((σ.thread 0).s.prog 0).tStart = 6 :=
    ⟨_, rfl, by decide, rfl, rfl⟩
  have hord := (h _ shortLife sleeper_initial sleeper_newborn rising_shortLife shortLife
    List.prefix_rfl σ hσ 0 hcount 0).1
  rw [hend, hlt] at hord
  exact absurd (hord (by decide)) (by decide)

end Process

end Peter
