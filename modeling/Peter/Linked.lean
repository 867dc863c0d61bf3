import Peter.Runs

/-!
# Programs of a scheduler

A scheduler notes down pointers to programs in its work units and in its `running` map.  A set of
programs that contains all it finds by name is never left (`Scheduler.Confined`): the calls of its
thread note down members of such a set only (`Thread.step_confines`), and leave the status alone but
for the places of the shutdown that set it (`Thread.step_local`).  So all the pointers lead to its
own `programs` (`Scheduler.Linked`), and so do those of its children (`Process.Owned`).
-/

namespace Peter

/-- The programs in the units and in the `running` map are among the `programs`. -/
structure Scheduler.Linked (s : Scheduler) : Prop where
  units : ∀ wu ∈ s.schedule.units, ∀ p ∈ wu.program, p ∈ s.programs
  running : ∀ pid, ∀ p ∈ s.running pid, p ∈ s.programs

/-- The programs in the start units, or in all units, and in the `running` map are in the set `C`,
which has all programs that are found by name. -/
structure Scheduler.Confined (all : Prop) (C : ProgPtr → Prop) (s : Scheduler) : Prop where
  named : ∀ name, ∀ p ∈ s.getProgramByName name, C p
  units : ∀ wu ∈ s.schedule.units, all ∨ wu.wType = .runProg → ∀ p ∈ wu.program, C p
  running : ∀ pid, ∀ p ∈ s.running pid, C p

theorem Scheduler.getProgramByName_mem {s : Scheduler} {name : Str} {p : ProgPtr}
    (h : s.getProgramByName name = some p) : p ∈ s.programs := List.mem_of_find?_eq_some h

theorem Scheduler.confined_programs {s : Scheduler} :
    s.Confined True (· ∈ s.programs) ↔ s.Linked :=
  ⟨fun h => ⟨fun wu hwu => h.units wu hwu (.inl trivial), h.running⟩, fun h =>
    ⟨fun _ _ hp => getProgramByName_mem hp, fun wu hwu _ => h.units wu hwu, h.running⟩⟩

theorem Scheduler.Confined.of_eq {all : Prop} {C : ProgPtr → Prop} {s s' : Scheduler}
    (h : s.Confined all C) (hf : s.Frame s') (hunits : s'.schedule.units = s.schedule.units)
    (hrunning : s'.running = s.running) : s'.Confined all C where
  named name p hp := h.named name p (by rwa [hf.getProgramByName] at hp)
  units := by rw [hunits]; exact h.units
  running := by rw [hrunning]; exact h.running

/-- The call leaves the status and the programs alone, and notes down programs of the scheduler
only. -/
structure World.Local (w w' : World) : Prop where
  status : w'.s.status = w.s.status
  programs : w'.s.programs = w.s.programs
  linked : w.s.Linked → w'.s.Linked

/-- The call leaves the status and the programs alone, and notes down programs of `C` only. -/
structure World.Confines (all : Prop) (C : ProgPtr → Prop) (w w' : World) : Prop where
  status : w'.s.status = w.s.status
  frame : w.s.Frame w'.s
  confined : w.s.Confined all C → w'.s.Confined all C

namespace World

variable {all : Prop} {C : ProgPtr → Prop} {w w' w'' : World} {p : ProgPtr} {e : Env}
  {env : ℕ → Env} {res sig : ℤ}

theorem Confines.refl (w : World) : w.Confines all C w := ⟨rfl, .refl _, id⟩

theorem Confines.trans (h : w.Confines all C w') (h' : w'.Confines all C w'') :
    w.Confines all C w'' :=
  ⟨h'.status.trans h.status, h.frame.trans h'.frame, h'.confined ∘ h.confined⟩

theorem confines_of_eq (hf : w.s.Frame w'.s) (hstatus : w'.s.status = w.s.status)
    (hunits : w'.s.schedule.units = w.s.schedule.units) (hrunning : w'.s.running = w.s.running) :
    w.Confines all C w' := ⟨hstatus, hf, fun h => h.of_eq hf hunits hrunning⟩

theorem confines_modifyProg (w : World) (p : ProgPtr) {f : Program → Program}
    (hf : (w.prog p).Frame (f (w.prog p))) : w.Confines all C (w.modifyProg p f) :=
  confines_of_eq (w.frame_modifyProg p hf) rfl rfl rfl

theorem confines_os (w : World) (os : OS) : w.Confines all C { w with os } :=
  confines_of_eq (.refl _) rfl rfl rfl

theorem confines_addEvent (w : World) (t : ℤ) (ty : EventType) (q : ProgPtr) (status : ℤ) :
    w.Confines all C (w.addEvent t ty q status) :=
  confines_of_eq ⟨rfl, rfl, fun _ => .refl _⟩ rfl rfl rfl

theorem confines_addWorkunit (w : World) {ty : WType} (t : ℤ) {q : Option ProgPtr}
    (hq : w.s.Confined all C → ∀ p ∈ q, C p) : w.Confines all C (w.addWorkunit ty t q) where
  status := rfl
  frame := ⟨rfl, rfl, fun _ => .refl _⟩
  confined h := by
    refine ⟨h.named, fun wu hwu hty => ?_, h.running⟩
    rcases List.mem_append.1 hwu with hwu | hwu
    · exact h.units wu hwu hty
    · rw [List.mem_singleton.1 hwu]
      exact hq h

theorem confines_setRunning (w : World) (pid : ℤ) {q : Option ProgPtr} (hq : ∀ p ∈ q, C p) :
    w.Confines all C (w.setRunning pid q) where
  status := rfl
  frame := ⟨rfl, rfl, fun _ => .refl _⟩
  confined h := by
    refine ⟨h.named, h.units, fun pid' => ?_⟩
    by_cases hpid : pid' = pid
    · subst hpid
      simpa [setRunning] using hq
    · simpa [setRunning, Function.update_of_ne hpid] using h.running pid'

theorem Confines.markUsed (hl : w.Confines all C w') {wu : WorkUnit}
    (hwu : all ∨ wu.wType = .runProg → ∀ p ∈ wu.program, C p) (pos : ℕ) (now : ℤ) :
    w.Confines all C (w'.markUsed pos wu now) where
  status := hl.status
  frame := hl.frame.trans (quiet_markUsed ..).frame
  confined h := by
    refine ⟨(hl.confined h).named, fun u hu hty => ?_, (hl.confined h).running⟩
    rcases List.mem_or_eq_of_mem_set hu with hu | rfl
    · exact (hl.confined h).units u hu hty
    · exact hwu (hty.imp_right fun hno => nomatch hno)

theorem confines_eraseUsed (w : World) : w.Confines all C { w with s := { w.s with schedule :=
    { w.s.schedule with units := Schedule.eraseUsed w.s.schedule.units } } } where
  status := rfl
  frame := ⟨rfl, rfl, fun _ => .refl _⟩
  confined h := by
    have hsub : ∀ l, Schedule.eraseUsed l ⊆ l := by
      intro l
      induction l with
      | nil => exact List.Subset.refl _
      | cons wu l ih =>
        rw [Schedule.eraseUsed]
        split_ifs
        · exact List.subset_cons_of_subset _ ih
        · exact List.cons_subset_cons _ ih
    exact ⟨h.named, fun wu hwu => h.units wu (hsub _ hwu), h.running⟩

/-! ## `run` and `what_next` -/

theorem confines_forked (w : World) (e : Env) (hint : ℤ) (hp : C p) :
    w.Confines all C (w.forked e p hint) where
  status := rfl
  frame := w.forked_frame e p hint
  confined h := by
    have hrunning : w.Confines all C (w.setRunning (w.os.freshPid hint) (some p)) :=
      w.confines_setRunning _ (by rintro q ⟨⟩; exact hp)
    have hf := w.forked_frame e p hint
    exact (hrunning.confined h).of_eq ⟨hf.self, hf.programs, hf.prog⟩ rfl rfl

theorem confines_run (hp : C p) (h : w.run e p = .ok w') : w.Confines all C w' := by
  have hcmd : ∀ cmd, w.Confines all C (w.setCmd p cmd) :=
    fun cmd => w.confines_modifyProg p (by constructor <;> simp)
  cases ran_of_run h with
  | running => exact .refl w
  | missing =>
    refine (hcmd _).trans (confines_addWorkunit _ _ fun _ => ?_)
    rintro q ⟨⟩
    exact hp
  | refused => exact hcmd _
  | @launched cmd hint => exact (hcmd cmd).trans (confines_forked _ e hint hp)

theorem confines_setAttribs (w : World) (p q : ProgPtr) (res sig : ℤ) :
    w.Confines all C (w.setAttribs p q res sig) :=
  confines_of_eq (quiet_setAttribs ..).frame rfl rfl rfl

theorem target_confined (h : w.s.Confined all C) (hp : C p) (a : Action) :
    C (w.target p a) := by
  unfold target
  cases hq : w.s.getProgramByName a.prog with
  | none => exact hp
  | some q => exact h.named _ q hq

theorem confines_doAction {lim : Bool} {a : Action} (hp : C p)
    (h : w.doAction e p res sig lim a = .ok w') : w.Confines all C w' := by
  have hl : ∀ q, w.Confines all C (w.setAttribs p q res sig) :=
    fun q => w.confines_setAttribs p q res sig
  have hqueue : ∀ ty t, w.Confines all C
      ((w.setAttribs p (w.target p a) res sig).addWorkunit ty t (some (w.target p a))) := by
    intro ty t
    refine ⟨rfl, (hl _).frame.trans (quiet_addWorkunit ..).frame, fun hw => ?_⟩
    refine (confines_addWorkunit _ t fun _ => ?_).confined ((hl _).confined hw)
    rintro r ⟨⟩
    exact target_confined hw hp a
  cases acted_of_doAction h with
  | direct _ _ _ _ hrun => exact (hl p).trans (confines_run hp hrun)
  | queued => exact hqueue _ _
  | passed => exact hl _

theorem confines_doActions {lim : Bool} {al : List Action} (hp : C p)
    (h : w.doActions p res sig lim al env = .ok w') : w.Confines all C w' := by
  induction al generalizing env w with
  | nil => cases h; exact .refl _
  | cons a al ih =>
    rw [doActions] at h
    split at h
    · next w₁ hw₁ => exact (confines_doAction hp hw₁).trans (ih h)
    · cases h

theorem confines_checkLimits (w : World) (e : Env) (p : ProgPtr) :
    w.Confines all C (w.checkLimits e p).2 := by
  unfold checkLimits
  dsimp only
  split_ifs
  · exact (confines_addEvent ..).trans (confines_addEvent ..)
  · exact confines_addEvent ..
  · exact confines_addEvent ..
  · exact .refl w

theorem confines_whatNext (hp : C p) (h : w.whatNext env res sig p = .ok w') :
    w.Confines all C w' := by
  have hl : w.Confines all C (w.incSeqIdx p) := w.confines_modifyProg p (by constructor <;> simp)
  cases followed_of_whatNext h with
  | stopped => exact confines_modifyProg _ _ (by constructor <;> simp)
  | next =>
    refine hl.trans (confines_addWorkunit _ _ fun _ => ?_)
    rintro q ⟨⟩
    exact hp
  | none => exact hl
  | actions _ _ _ _ hdo =>
    exact (hl.trans (confines_checkLimits _ (env 0) p)).trans (confines_doActions hp hdo)

/-! ## Signals, limits and deaths -/

theorem confines_sendSignal (w : World) (e : Env) (p : ProgPtr) (sig : ℤ) (cause : Cause) :
    w.Confines all C (w.sendSignal e p sig cause).2 := by
  unfold sendSignal
  by_cases hpid : (w.prog p).pid = 0
  · rw [if_pos hpid]
    exact .refl w
  · rw [if_neg hpid]
    exact confines_os ..

theorem confines_handleLimit (w : World) (e : Env) (now : ℤ) (p : ProgPtr) :
    w.Confines all C (w.handleLimit e now p) := by
  unfold handleLimit
  split_ifs
  · exact ((confines_sendSignal ..).trans
      (confines_modifyProg _ _ (by constructor <;> simp))).trans (confines_addEvent ..)
  · exact .refl w

theorem confines_bury (w : World) (c : Child) (p : ProgPtr) (now : ℤ) :
    w.Confines all C (w.bury c p now) :=
  (confines_modifyProg _ _ (by constructor <;> simp)).trans (confines_setRunning _ _ (by simp))

theorem confines_handleDeath {now : ℤ} {c : Child} (hp : C p)
    (h : w.handleDeath env now c p = .ok w') : w.Confines all C w' := by
  obtain ⟨w₁, hw₁, rfl⟩ := handleDeath_eq_ok h
  have hl : w.Confines all C ((w.bury c p now).addDeathEvent now p (c.status.getD 0)) := by
    refine (w.confines_bury c p now).trans ?_
    unfold addDeathEvent
    split_ifs
    · exact confines_addEvent ..
    · exact .refl _
    · exact confines_addEvent ..
  exact (hl.trans (confines_whatNext hp hw₁)).trans
    (confines_of_eq (quiet_incChanged _).frame rfl rfl rfl)

theorem confines_handleUnit {now : ℤ} {pos : ℕ} {wu : WorkUnit}
    (hwu : all ∨ wu.wType = .runProg → ∀ p ∈ wu.program, C p)
    (h : handleUnit e now pos wu w = .ok w') : w.Confines all C w' := by
  cases handles_of_handleUnit h with
  | later => exact .refl w
  | exit =>
    exact ((Confines.refl w).markUsed hwu pos now).trans
      (confines_of_eq (quiet_setMode ..).frame rfl rfl rfl)
  | @run p w₁ hty hdue hp hrun =>
    have hC : C p := hwu (.inr hty) p hp
    refine ((confines_run hC hrun).markUsed hwu pos now).trans (confines_setRunning _ _ ?_)
    rintro q ⟨⟩
    exact hC
  | stop hty hdue hp hw =>
    refine Confines.markUsed ?_ hwu pos now
    rw [hw]
    exact ((confines_modifyProg _ _ (by constructor <;> simp)).trans
      (confines_addEvent ..)).trans (confines_sendSignal ..)
  | nostart => exact (Confines.refl w).markUsed hwu pos now

end World

/-! ## The thread -/

namespace Thread

variable {all : Prop} {C : ProgPtr → Prop} {t t' : Thread} {os os' : OS} {e : Env} {env : ℕ → Env}

/-- The step is local, or sets the status. -/
def Stays (t : Thread) (os : OS) (w' : World) : Prop :=
  World.Local ⟨t.s, os⟩ w' ∨
    ∃ status, w' = World.setStatus ⟨t.s, os⟩ status ∧ (status = .ready → t.finishing)

/-- Every step of a scheduler thread notes down programs of the set, or sets the status. -/
theorem step_confines (hl : t.s.Confined all C) (h : t.step env os = .ok (t', os')) :
    World.Confines all C ⟨t.s, os⟩ ⟨t'.s, os'⟩ ∨
    ∃ status, (⟨t'.s, os'⟩ : World) = World.setStatus ⟨t.s, os⟩ status ∧
      (status = .ready → t.finishing) := by
  obtain ⟨pc, w, hm, rfl, rfl⟩ := step_moves h
  cases hm with
  | jump => exact .inl (.refl _)
  | leave => exact .inr ⟨_, rfl, nofun⟩
  | enter => exact .inl (World.confines_of_eq ⟨rfl, rfl, fun _ => .refl _⟩ rfl rfl rfl)
  | @unit _ _ wu _ _ hwu hw =>
    exact .inl (World.confines_handleUnit (hl.units wu (List.mem_of_getElem? hwu)) hw)
  | erase => exact .inl (World.confines_eraseUsed ⟨t.s, os⟩)
  | limit => exact .inl (World.confines_handleLimit ..)
  | @death _ _ _ c p _ _ _ hp hw =>
    refine .inl ((World.confines_os ⟨t.s, os⟩ _).trans (World.confines_handleDeath ?_ hw))
    exact hl.running c.pid p hp
  | alive => exact .inl (.refl _)
  | stray => exact .inl (World.confines_os ⟨t.s, os⟩ _)
  | bury => exact .inl ((World.confines_os ⟨t.s, os⟩ _).trans (World.confines_bury ..))
  | nobody => exact .inl (.refl _)
  | stop => exact .inl (World.confines_sendSignal ..)
  | stopped => exact .inr ⟨_, rfl, nofun⟩
  | kill => exact .inl (World.confines_sendSignal ..)
  | finish hfin => exact .inr ⟨_, rfl, fun _ => hfin⟩

/-- Every step of a scheduler thread is local or sets the status. -/
theorem step_local (hl : t.s.Linked) (h : t.step env os = .ok (t', os')) :
    t.Stays os ⟨t'.s, os'⟩ := by
  refine (step_confines (Scheduler.confined_programs.2 hl) h).imp_left fun hc => ?_
  refine ⟨hc.status, hc.frame.programs, fun hlinked => ?_⟩
  have hconfined := hc.confined (Scheduler.confined_programs.2 hlinked)
  exact ⟨fun wu hwu p hp => hc.frame.programs ▸ hconfined.units wu hwu (.inl trivial) p hp,
    fun pid p hp => hc.frame.programs ▸ hconfined.running pid p hp⟩

/-- So the set is never left. -/
theorem confined_of_step (hl : t.s.Confined all C) (h : t.step env os = .ok (t', os')) :
    t.s.Frame t'.s ∧ t'.s.Confined all C := by
  rcases step_confines hl h with hc | ⟨status, hw, -⟩
  · exact ⟨hc.frame, hc.confined hl⟩
  · have hf : t.s.Frame (World.setStatus ⟨t.s, os⟩ status).s := ⟨rfl, rfl, fun _ => .refl _⟩
    rw [show t'.s = (World.setStatus ⟨t.s, os⟩ status).s from congrArg World.s hw]
    exact ⟨hf, hl.of_eq hf rfl rfl⟩

end Thread

/-! ## Runs -/

/-- A fork is of a program with property `P`. -/
def Entry.Forks (P : Key → Prop) : Entry → Prop
  | .fork k _ _ => P k
  | _ => True

namespace Process

variable {σ σ' : Process} {l : Label}

/-- The schedulers note down their own programs only. -/
def Linked (σ : Process) : Prop := ∀ i, (σ.thread i).s.Linked

/-- Each scheduler notes down programs of its set only. -/
def Confined (all : Prop) (C : ℕ → ProgPtr → Prop) (σ : Process) : Prop :=
  ∀ i, (σ.thread i).s.Confined all (C i)

section Confined

variable {all : Prop} {C : ℕ → ProgPtr → Prop}

theorem Confined.put (hσ : σ.Confined all C) (i : ℕ) {t : Thread} (hf : (σ.thread i).s.Frame t.s)
    (ht : t.s.Confined all (C i)) (os : OS) :
    σ.Frame (σ.put i t os) ∧ (σ.put i t os).Confined all C := by
  refine ⟨σ.put_frame i os hf, fun j => ?_⟩
  by_cases hj : j = i
  · subst hj
    simpa [Process.put] using ht
  · simpa [Process.put, Function.update_of_ne hj] using hσ j

theorem Confined.addWorkunit (hσ : σ.Confined all C) (i : ℕ) (ty : WType) (t : ℤ)
    {q : Option ProgPtr} (hq : ∀ p ∈ q, C i p) :
    σ.Frame (σ.addWorkunit i ty t q) ∧ (σ.addWorkunit i ty t q).Confined all C :=
  have hc : World.Confines all (C i) ⟨(σ.thread i).s, σ.os⟩ _ :=
    World.confines_addWorkunit _ t fun _ => hq
  hσ.put i hc.frame (hc.confined (hσ i)) _

theorem Confined.addNamed (hσ : σ.Confined all C) (i : ℕ) (ty : WType) (name : Str) (now : ℤ) :
    σ.Frame (σ.addNamed i ty name now) ∧ (σ.addNamed i ty name now).Confined all C := by
  unfold Process.addNamed
  cases hp : (σ.thread i).s.getProgramByName name with
  | none => exact ⟨.refl σ, hσ⟩
  | some p =>
    refine hσ.addWorkunit i ty now ?_
    rintro q ⟨⟩
    exact (hσ i).named name p hp

theorem Confined.step (hσ : σ.Confined all C) (h : machine.step l σ = .ok σ') :
    σ.Frame σ' ∧ σ'.Confined all C := by
  cases l with
  | thread i env =>
    simp only [machine, Process.step] at h
    split_ifs at h with hi
    · cases hstep : (σ.thread i).step env σ.os with
      | error e => rw [hstep] at h; cases h
      | ok r =>
        rw [hstep] at h
        cases h
        obtain ⟨hf, hc⟩ := Thread.confined_of_step (hσ i) hstep
        exact hσ.put i hf hc _
    · cases h
      exact ⟨.refl σ, hσ⟩
  | dies pid status => cases h; exact ⟨⟨rfl, fun _ => .refl _⟩, hσ⟩
  | leaves pid => cases h; exact ⟨⟨rfl, fun _ => .refl _⟩, hσ⟩
  | quit i now => cases h; exact hσ.addWorkunit i .exit now (by simp)
  | start i name now => cases h; exact hσ.addNamed i .runProg name now
  | stop i name now => cases h; exact hσ.addNamed i .endProg name now
  | interrupt i =>
    cases h
    have hf : (σ.thread i).s.Frame { (σ.thread i).s with mode := .off } :=
      ⟨rfl, rfl, fun _ => .refl _⟩
    exact hσ.put i (t := { σ.thread i with s := { (σ.thread i).s with mode := .off } }) hf
      ((hσ i).of_eq hf rfl rfl) _

end Confined

theorem Linked.step (hσ : σ.Linked) (h : machine.step l σ = .ok σ') : σ'.Linked := by
  have hconfined : σ.Confined True fun i => (· ∈ (σ.thread i).s.programs) :=
    fun i => Scheduler.confined_programs.2 (hσ i)
  obtain ⟨hf, hσ'⟩ := hconfined.step h
  intro i
  refine Scheduler.confined_programs.1 ?_
  rw [(hf.scheduler i).programs]
  exact hσ' i

/-- Every child has a pid and runs a program of the scheduler that forked it. -/
structure Owned (σ : Process) : Prop extends σ.Regular where
  linked : σ.Linked
  pid : ∀ d ∈ σ.books.os.kids, 0 < d.1
  owner : ∀ d ∈ σ.books.os.kids, d.2.2 ∈ (σ.thread d.2.1).s.programs

/-- A step forks programs of its scheduler. -/
theorem Linked.forks (hσ : σ.Linked) {es : List Entry} {b' : Books} (hes : l.Entries σ es)
    (hexec : supervisor.exec es σ.books = .ok b') :
    ∀ e ∈ es, e.Forks fun k => k.2 ∈ (σ.thread k.1).s.programs := by
  cases hes with
  | thread _ hs =>
    cases hs with
    | start hat =>
      obtain ⟨now, wui, wu, -, hwu, -, -, hp⟩ := hat
      simpa [Entry.Forks] using (hσ _).units wu (List.mem_of_getElem? hwu) _ hp
    | restart hreap =>
      obtain ⟨b, hbury, -⟩ := Transition.System.exec_cons_eq_ok.1 hexec
      simpa [Entry.Forks] using (hσ _).running _ _ (step_bury.1 hbury).1.2.1
    | _ => simp [Entry.Forks]
  | _ => simp [Entry.Forks]

theorem Owned.step (hσ : σ.Owned) (h : machine.step l σ = .ok σ') : σ'.Owned := by
  obtain ⟨hf, es, hes, hexec⟩ := step_entries hσ.self h
  let Q : ℤ × Key → Prop := fun d => 0 < d.1 ∧ d.2.2 ∈ (σ.thread d.2.1).s.programs
  have hstep : ∀ (e : Entry) (b b' : Books),
      e.Forks (fun k => k.2 ∈ (σ.thread k.1).s.programs) → (∀ d ∈ b.os.kids, Q d) →
        supervisor.step e b = .ok b' → ∀ d ∈ b'.os.kids, Q d := by
    intro e b b' he hb hstep
    apply forall_mem_kids hb hstep
    rintro k hint t rfl
    exact ⟨b.os.freshPid_pos hint, he⟩
  have hkids := Transition.System.exec_invariant_of_forall hstep (hσ.linked.forks hes hexec)
    (fun d hd => ⟨hσ.pid d hd, hσ.owner d hd⟩) hexec
  refine ⟨hσ.toRegular.step h, hσ.linked.step h, fun d hd => (hkids d hd).1, fun d hd => ?_⟩
  rw [(hf.scheduler d.2.1).programs]
  exact (hkids d hd).2

theorem Initial.owned (h : σ.Initial) (hlinked : σ.Linked) : σ.Owned :=
  ⟨h.regular, hlinked, by simp [h.kids], by simp [h.kids]⟩

end Process

/-! ## Configurations -/

/-- The `<init>` sections are those of the programs of the scheduler. -/
def SchedulerConfig.Linked (c : SchedulerConfig) : Prop := ∀ u ∈ c.init, u.2.2 < c.programs.length

theorem Schedule.ofInit_program {init : List (WType × ℤ × ProgPtr)} :
    ∀ wu ∈ (Schedule.ofInit init).units, ∀ p ∈ wu.program, ∃ u ∈ init, u.2.2 = p := by
  have hfold : ∀ (l : List (WType × ℤ × ProgPtr)) (sch : Schedule),
      ∀ wu ∈ (l.foldl (fun sch u => sch.pushBack ⟨sch.nextAddr, u.1, u.2.1, some u.2.2⟩) sch).units,
        ∀ p ∈ wu.program, wu ∈ sch.units ∨ ∃ u ∈ l, u.2.2 = p := by
    intro l
    induction l with
    | nil => exact fun sch wu hwu p hp => .inl hwu
    | cons u l ih =>
      intro sch wu hwu p hp
      rcases ih _ wu hwu p hp with h | ⟨u', hu', rfl⟩
      · rcases List.mem_append.1 h with h | h
        · exact .inl h
        · rw [List.mem_singleton.1 h] at hp
          exact .inr ⟨u, List.mem_cons_self, Option.some.inj hp⟩
      · exact .inr ⟨u', List.mem_cons_of_mem _ hu', rfl⟩
  intro wu hwu p hp
  rcases hfold init {} wu hwu p hp with h | h
  · cases h
  · exact h

theorem Process.configured_linked {config : List SchedulerConfig}
    (h : ∀ c ∈ config, c.Linked) : (Process.configured config).Linked := by
  intro i
  refine ⟨fun wu hwu p hp => ?_, nofun⟩
  obtain ⟨u, hu, rfl⟩ := Schedule.ofInit_program wu hwu p hp
  have hc : (config.getD i {}).Linked := by
    rw [List.getD_eq_getElem?_getD]
    cases hc : config[i]? with
    | none => exact nofun
    | some c => exact h c (List.mem_of_getElem? hc)
  exact List.mem_range.2 (hc u hu)

end Peter
