import Peter.Sound
import Peter.Steps

/-!
# Runs of the process

A step of the process is a step of one thread or leaves the schedulers' books alone, so the process
refines `supervisor` (`Process.step_entries`).  `Regular` holds in every state of every run;
`Sound` holds as long as no scheduler may be given the dead child of another one (`OwnDeaths`),
which is always so when there is one scheduler.
-/

namespace Peter

/-! ## Refinement -/

/-- What a label enters in the books. -/
inductive Label.Entries (σ : Process) : Label → List Entry → Prop
  | thread {i : ℕ} {env : ℕ → Env} {es : List Entry} (hi : i < σ.count)
      (hs : (σ.thread i).Shape i (env 0) σ.os es) : Entries σ (.thread i env) es
  | dies {pid : ℤ} {status : ℕ} : Entries σ (.dies pid status) [.dies pid status]
  | leaves {pid : ℤ} : Entries σ (.leaves pid) [.leaves pid]
  | quiet {l : Label} (hl : ∀ i env, l = .thread i env → σ.count ≤ i) : Entries σ l []

structure Process.Frame (σ σ' : Process) : Prop where
  count : σ'.count = σ.count
  scheduler : ∀ i, (σ.thread i).s.Frame (σ'.thread i).s

namespace Process

variable {σ σ' : Process}

theorem books_eq (σ : Process) (i : ℕ) :
    σ.books = World.books σ.schedulers i ⟨(σ.thread i).s, σ.os⟩ := by
  unfold books World.books
  rw [show (σ.thread i).s = σ.schedulers i from rfl, Function.update_eq_self]

theorem put_books (σ : Process) (i : ℕ) (t : Thread) (os : OS) :
    (σ.put i t os).books = World.books σ.schedulers i ⟨t.s, os⟩ := by
  have hs : (σ.put i t os).schedulers = Function.update σ.schedulers i t.s := by
    funext j
    by_cases hj : j = i
    · simp [schedulers, put, hj]
    · simp [schedulers, put, Function.update_of_ne hj]
  unfold books World.books
  rw [hs]
  rfl

theorem put_frame (σ : Process) (i : ℕ) {t : Thread} (os : OS) (h : (σ.thread i).s.Frame t.s) :
    σ.Frame (σ.put i t os) := by
  refine ⟨rfl, fun j => ?_⟩
  by_cases hj : j = i
  · subst hj
    simpa [put] using h
  · simpa [put, Function.update_of_ne hj] using Scheduler.Frame.refl _

theorem Frame.refl (σ : Process) : σ.Frame σ := ⟨rfl, fun _ => .refl _⟩

theorem Frame.trans {σ'' : Process} (h : σ.Frame σ') (h' : σ'.Frame σ'') : σ.Frame σ'' :=
  ⟨h'.count.trans h.count, fun i => (h.scheduler i).trans (h'.scheduler i)⟩

/-- A command changes only the schedule and the mode of a scheduler. -/
theorem put_quiet (σ : Process) (i : ℕ) {w : World}
    (h : World.Quiet ⟨(σ.thread i).s, σ.os⟩ w) :
    σ.Frame (σ.put i { σ.thread i with s := w.s } w.os) ∧
      (σ.put i { σ.thread i with s := w.s } w.os).books = σ.books := by
  refine ⟨σ.put_frame i _ h.frame, ?_⟩
  rw [put_books, σ.books_eq i]
  exact h.books_eq _ i

theorem addNamed_os (σ : Process) (i : ℕ) (ty : WType) (name : Str) (now : ℤ) :
    (σ.addNamed i ty name now).os = σ.os := by
  unfold addNamed
  split <;> rfl

theorem addNamed_quiet (σ : Process) (i : ℕ) (ty : WType) (name : Str) (now : ℤ) :
    σ.Frame (σ.addNamed i ty name now) ∧ (σ.addNamed i ty name now).books = σ.books := by
  unfold addNamed
  cases (σ.thread i).s.getProgramByName name with
  | none => exact ⟨.refl σ, rfl⟩
  | some p => exact σ.put_quiet i (World.quiet_addWorkunit ..)

/-- Every step of the process is a run of the supervisor. -/
theorem step_entries {l : Label} (hself : ∀ i < σ.count, (σ.thread i).s.self = i)
    (h : machine.step l σ = .ok σ') :
    σ.Frame σ' ∧ ∃ es, l.Entries σ es ∧ supervisor.exec es σ.books = .ok σ'.books := by
  have hquiet : (∀ i env, l = .thread i env → σ.count ≤ i) → σ.Frame σ' ∧ σ'.books = σ.books →
      σ.Frame σ' ∧ ∃ es, l.Entries σ es ∧ supervisor.exec es σ.books = .ok σ'.books :=
    fun hl hq => ⟨hq.1, [], .quiet hl, congrArg Except.ok hq.2.symm⟩
  cases l with
  | thread i env =>
    simp only [machine, step] at h
    split_ifs at h with hi
    · cases hstep : (σ.thread i).step env σ.os with
      | error e => rw [hstep] at h; cases h
      | ok r =>
        obtain ⟨t, os⟩ := r
        rw [hstep] at h
        cases h
        obtain ⟨hf, es, hs, hes⟩ := Thread.step_entered σ.schedulers (hself i hi) hstep
        refine ⟨σ.put_frame i os hf, es, .thread hi hs, ?_⟩
        rwa [put_books, σ.books_eq i]
    · cases h
      refine hquiet (fun j env' he => ?_) ⟨.refl σ, rfl⟩
      cases he
      omega
  | dies pid status =>
    cases h
    exact ⟨⟨rfl, fun _ => .refl _⟩, _, .dies, rfl⟩
  | leaves pid =>
    cases h
    exact ⟨⟨rfl, fun _ => .refl _⟩, _, .leaves, rfl⟩
  | quit i now => cases h; exact hquiet (by simp) (σ.put_quiet i (World.quiet_addWorkunit ..))
  | start i name now => cases h; exact hquiet (by simp) (σ.addNamed_quiet ..)
  | stop i name now => cases h; exact hquiet (by simp) (σ.addNamed_quiet ..)
  | interrupt i =>
    cases h
    exact hquiet (by simp) (σ.put_quiet i (World.quiet_setMode ⟨(σ.thread i).s, σ.os⟩ .off))

end Process

/-! ## One thread of the process -/

/-- The label is a command that queues a unit for scheduler `i`. -/
def Process.Commands (σ : Process) (i : ℕ) : Label → Prop
  | .quit j _ => j = i
  | .start j name _ => j = i ∧ ((σ.thread i).s.getProgramByName name).isSome
  | .stop j name _ => j = i ∧ ((σ.thread i).s.getProgramByName name).isSome
  | _ => False

/-- What a command does to a scheduler object. -/
inductive Scheduler.Command (queues : Prop) (s : Scheduler) : Scheduler → Prop
  | none (h : ¬queues) : Command queues s s
  | unit {ty : WType} {t : ℤ} {p : Option ProgPtr} (h : queues)
      (hty : ty = .exit ∨ (ty = .runProg ∨ ty = .endProg) ∧ p.isSome) : Command queues s
        { s with schedule := s.schedule.pushBack ⟨s.schedule.nextAddr, ty, t, p⟩ }
  | off (h : ¬queues) : Command queues s { s with mode := .off }

namespace Process

variable {σ σ' : Process}

theorem put_command {i j : ℕ} {s : Scheduler} {queues : Prop}
    (hj : i = j → (σ.thread i).s.Command queues s) (hne : i ≠ j → ¬queues) (os : OS) :
    ∃ s', (σ.thread i).s.Command queues s' ∧
      (σ.put j { σ.thread j with s } os).thread i = { σ.thread i with s := s' } := by
  by_cases h : i = j
  · subst h
    exact ⟨s, hj rfl, by simp [put]⟩
  · exact ⟨_, .none (hne h), by simp [put, Function.update_of_ne h]⟩

theorem addNamed_command {i j : ℕ} {ty : WType} {name : Str} {now : ℤ} {queues : Prop}
    (hq : queues ↔ j = i ∧ ((σ.thread i).s.getProgramByName name).isSome)
    (hty : ty = .runProg ∨ ty = .endProg) :
    ∃ s', (σ.thread i).s.Command queues s' ∧
      (σ.addNamed j ty name now).thread i = { σ.thread i with s := s' } := by
  unfold addNamed
  cases hp : (σ.thread j).s.getProgramByName name with
  | none =>
    refine ⟨_, .none fun h => ?_, rfl⟩
    obtain ⟨rfl, h⟩ := hq.1 h
    simp [hp] at h
  | some p =>
    refine put_command (fun h => ?_) (fun h hq' => h (hq.1 hq').1.symm) _
    subst h
    exact .unit (hq.2 ⟨rfl, by simp [hp]⟩) (.inr ⟨hty, rfl⟩)

/-- A step of the process is one of thread `i`, or leaves it where it is. -/
theorem thread_of_step {l : Label} (h : machine.step l σ = .ok σ') (i : ℕ) :
    (∃ env t os, l = .thread i env ∧ i < σ.count ∧ (σ.thread i).step env σ.os = .ok (t, os) ∧
      σ'.thread i = t ∧ σ'.os = os) ∨
    ((∀ env, l = .thread i env → σ.count ≤ i) ∧
      ∃ s, (σ.thread i).s.Command (σ.Commands i l) s ∧ σ'.thread i = { σ.thread i with s }) := by
  cases l with
  | thread j env =>
    simp only [machine, step] at h
    split_ifs at h with hj
    · cases hstep : (σ.thread j).step env σ.os with
      | error e => rw [hstep] at h; cases h
      | ok r =>
        rw [hstep] at h
        cases h
        by_cases hi : i = j
        · subst hi
          exact .inl ⟨env, r.1, r.2, rfl, hj, hstep, by simp [put], rfl⟩
        · refine .inr ⟨fun env' he => ?_, _, .none id, by simp [put, Function.update_of_ne hi]⟩
          cases he
          exact absurd rfl hi
    · cases h
      refine .inr ⟨fun env' he => ?_, _, .none id, rfl⟩
      cases he
      omega
  | dies pid status => cases h; exact .inr ⟨by simp, _, .none id, rfl⟩
  | leaves pid => cases h; exact .inr ⟨by simp, _, .none id, rfl⟩
  | quit j now =>
    cases h
    refine .inr ⟨by simp, put_command (fun hj => ?_) (fun hj hq => hj hq.symm) _⟩
    subst hj
    exact .unit rfl (.inl rfl)
  | start j name now => cases h; exact .inr ⟨by simp, addNamed_command Iff.rfl (.inl rfl)⟩
  | stop j name now => cases h; exact .inr ⟨by simp, addNamed_command Iff.rfl (.inr rfl)⟩
  | interrupt j =>
    cases h
    refine .inr ⟨by simp, put_command (fun hj => ?_) (fun _ => id) _⟩
    subst hj
    exact .off id

end Process

/-! ## What holds in every run -/

/-- The children are those of the schedulers of the process. -/
def Books.Homed (n : ℕ) (b : Books) : Prop := ∀ d ∈ b.os.kids, d.2.1 < n

/-- The scheduler that forks is one of the process. -/
def Entry.Within (n : ℕ) : Entry → Prop
  | .fork k _ _ => k.1 < n
  | _ => True

theorem Books.Homed.step {n : ℕ} {b b' : Books} {e : Entry} (hb : b.Homed n) (he : e.Within n)
    (h : supervisor.step e b = .ok b') : b'.Homed n := by
  apply forall_mem_kids hb h
  rintro k hint t rfl
  exact he

theorem Label.Entries.within {σ : Process} {l : Label} {es : List Entry} (h : l.Entries σ es) :
    ∀ e ∈ es, e.Within σ.count := by
  cases h with
  | thread hi hs => cases hs <;> simp [Entry.Within, hi]
  | dies => simp [Entry.Within]
  | leaves => simp [Entry.Within]
  | quiet => simp

/-- What holds in every state of every run, for any number of schedulers. -/
structure Process.Regular (σ : Process) : Prop where
  self : ∀ i < σ.count, (σ.thread i).s.self = i
  stopMode : ∀ i < σ.count, ∀ p, ((σ.thread i).s.prog p).stopMode = 0
  homed : σ.books.Homed σ.count

namespace Process

variable {σ σ' : Process}

theorem Regular.frame_of_step {l : Label} (hσ : σ.Regular) (h : machine.step l σ = .ok σ') :
    σ.Frame σ' := (step_entries hσ.self h).1

theorem Regular.of_frame (hσ : σ.Regular) (hf : σ.Frame σ') (hhomed : σ'.books.Homed σ'.count) :
    σ'.Regular := by
  refine ⟨fun i hi => (hf.scheduler i).self.trans (hσ.self i (hf.count ▸ hi)), fun i hi p => ?_,
    hhomed⟩
  rcases ((hf.scheduler i).prog p).stopMode with hm | hm
  · exact hm.trans (hσ.stopMode i (hf.count ▸ hi) p)
  · exact hm

theorem Regular.step {l : Label} (hσ : σ.Regular) (h : machine.step l σ = .ok σ') :
    σ'.Regular := by
  obtain ⟨hf, es, hes, hexec⟩ := step_entries hσ.self h
  refine hσ.of_frame hf ?_
  rw [hf.count]
  exact Transition.System.exec_invariant_of_forall (fun _ _ _ he hb => hb.step he) hes.within
    hσ.homed hexec

theorem Initial.kids (h : σ.Initial) : σ.books.os.kids = [] := by
  rw [show σ.books.os = σ.os from rfl, OS.kids, h.children, List.map_nil]

theorem Initial.regular (h : σ.Initial) : σ.Regular where
  self i _ := (h.scheduler i).self
  stopMode i _ := (h.scheduler i).stopMode
  homed d hd := absurd hd (by simp [h.kids])

theorem regular_run {ls : List Label} (h₀ : σ.Initial) (h : machine.exec ls σ = .ok σ') :
    σ'.Regular :=
  Transition.System.exec_invariant (fun _ _ _ hσ => hσ.step) h₀.regular h

theorem Initial.count_of_run {ls : List Label} (h₀ : σ.Initial) (h : machine.exec ls σ = .ok σ') :
    σ'.count = σ.count :=
  (Transition.System.exec_invariant (I := fun τ => τ.Regular ∧ τ.count = σ.count)
    (fun _ _ _ hτ hl => ⟨hτ.1.step hl, (hτ.1.frame_of_step hl).count.trans hτ.2⟩)
    ⟨h₀.regular, rfl⟩ h).2

/-- The process when no scheduler ever had a foreign child to reap. -/
structure Kept (σ : Process) : Prop extends σ.Regular where
  sound : Sound σ.books

/-- No scheduler can be given the dead child of another one. -/
def OwnDeaths (σ : Process) (l : Label) (_ : Process) : Prop :=
  ∀ i env, l = .thread i env → i < σ.count → ∀ pid, (σ.thread i).waitsFor = some pid →
    ∀ c ∈ σ.os.zombies pid, c.thread = i

theorem reaps_mem {i : ℕ} {e : Env} {c : Child} (h : (σ.thread i).reaps e σ.os = some c) :
    ∃ pid, (σ.thread i).waitsFor = some pid ∧ c ∈ σ.os.zombies pid := by
  obtain ⟨pid, hpid, hc⟩ := Option.bind_eq_some_iff.1 h
  exact ⟨pid, hpid, OS.mem_zombies_of_waitpid hc⟩

theorem OwnDeaths.own {l : Label} {es : List Entry} (h : σ.OwnDeaths l σ')
    (hes : l.Entries σ es) : ∀ e ∈ es, e.Own := by
  cases hes with
  | @thread i env es hi hs =>
    have hown : ∀ {c}, (σ.thread i).reaps (env 0) σ.os = some c → c.thread = i := by
      intro c hc
      obtain ⟨pid, hpid, hc⟩ := reaps_mem hc
      exact h i env rfl hi pid hpid c hc
    cases hs with
    | death hreap => simpa [Entry.Own] using hown hreap
    | restart hreap => simpa [Entry.Own] using hown hreap
    | stray hreap => simpa [Entry.Own] using hown hreap
    | _ => simp [Entry.Own]
  | dies => simp [Entry.Own]
  | leaves => simp [Entry.Own]
  | quiet => simp

theorem Kept.step {l : Label} (hσ : σ.Kept) (h : machine.step l σ = .ok σ')
    (hown : σ.OwnDeaths l σ') : σ'.Kept := by
  obtain ⟨-, es, hes, hexec⟩ := step_entries hσ.self h
  exact ⟨hσ.toRegular.step h, Transition.System.exec_invariant_of_forall
    (fun _ _ _ he hb h => hb.step h he) (hown.own hes) hσ.sound hexec⟩

theorem Initial.kept (h : σ.Initial) : σ.Kept := by
  refine ⟨h.regular, ?_⟩
  constructor
  case nodup => simp [h.kids]
  case pos => simp [h.kids]
  case held => exact fun k hk => absurd ((h.scheduler k.1).pid k.2) hk
  case known => simp [h.kids]
  case only =>
    intro i pid p hp
    exact absurd (((h.scheduler i).running pid).symm.trans hp) (by simp)
  case sole => simp [h.kids]

/-! ## One scheduler -/

/-- The only scheduler can be given no foreign child. -/
theorem Regular.ownDeaths (hσ : σ.Regular) (h1 : σ.count = 1) (l : Label) (σ' : Process) :
    σ.OwnDeaths l σ' := by
  intro i env _ hi pid _ c hc
  have := hσ.homed _ (OS.mem_kids (OS.mem_zombies.1 hc).1)
  simp only [Child.key] at this
  omega

theorem Kept.step_lone {l : Label} (hσ : σ.Kept) (h1 : σ.count = 1)
    (h : machine.step l σ = .ok σ') : σ'.Kept ∧ σ'.count = 1 :=
  ⟨hσ.step h (hσ.ownDeaths h1 l σ'), (hσ.frame_of_step h).count.trans h1⟩

theorem ownDeaths_along (h₀ : σ.Initial) (h1 : σ.count = 1) (ls : List Label) :
    machine.Along OwnDeaths ls σ := by
  have hstep : ∀ l τ τ', τ.Regular ∧ τ.count = 1 → machine.step l τ = .ok τ' →
      τ'.Regular ∧ τ'.count = 1 :=
    fun l τ τ' hτ h => ⟨hτ.1.step h, (hτ.1.frame_of_step h).count.trans hτ.2⟩
  exact Transition.System.along_of_invariant (fun l τ τ' hτ _ => hτ.1.ownDeaths hτ.2 l τ') hstep
    ⟨h₀.regular, h1⟩

/-- Every run of the process is one of the supervisor on its books. -/
theorem run_refines {ls : List Label} (h₀ : σ.Initial) (h : machine.exec ls σ = .ok σ') :
    supervisor.Reaches σ.books σ'.books := by
  refine Transition.System.exec_refines (fun l τ τ' hτ hl => Regular.step hτ hl) ?_ h₀.regular h
  intro l τ τ' hτ hl
  obtain ⟨-, es, -, hexec⟩ := step_entries hτ.self hl
  exact ⟨es, hexec⟩

/-- The books of a process with one scheduler are sound in every state it reaches. -/
theorem kept_run {ls : List Label} (h₀ : σ.Initial) (h1 : σ.count = 1)
    (h : machine.exec ls σ = .ok σ') : σ'.Kept ∧ σ'.count = 1 := by
  have hstep : ∀ l τ τ', τ.Kept ∧ τ.count = 1 → machine.step l τ = .ok τ' →
      τ'.Kept ∧ τ'.count = 1 := fun l τ τ' hτ hl => hτ.1.step_lone hτ.2 hl
  exact Transition.System.exec_invariant hstep ⟨h₀.kept, h1⟩ h

end Process

end Peter
