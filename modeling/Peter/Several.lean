import Peter.Bookkeeping
import Peter.Deaths

/-!
# Several schedulers

With any number of schedulers the books describe the children in every state of a run exactly when
every child was reaped by the scheduler that forked it (`sound_iff`): one foreign child, and the
`running` map of its owner names a process that is gone.  In such a run the event list of a
scheduler in its main loop tells the life of each of its programs, starts and deaths in turn, and
ends where the pid field is (`log_alternates`).
-/

namespace Peter

/-! ## Reaping in turn -/

/-- The child that a scheduler reaps is its own. -/
def Process.OwnReaps (σ : Process) (l : Label) (_ : Process) : Prop :=
  ∀ i env c, l = .thread i env → i < σ.count → (σ.thread i).reaps (env 0) σ.os = some c →
    c.thread = i

namespace Process

variable {σ₀ σ σ' : Process} {l : Label} {ls : List Label} {i : ℕ} {p : ProgPtr}

instance (σ σ' : Process) : (l : Label) → Decidable (σ.OwnReaps l σ')
  | .thread i env => decidable_of_iff
      (i < σ.count → ∀ c ∈ (σ.thread i).reaps (env 0) σ.os, c.thread = i) <| by
    constructor
    · rintro h j env' c ⟨⟩ hj hc
      exact h hj c hc
    · exact fun h hi c hc => h i env c rfl hi hc
  | .dies _ _ => .isTrue nofun
  | .leaves _ => .isTrue nofun
  | .quit _ _ => .isTrue nofun
  | .start _ _ _ => .isTrue nofun
  | .stop _ _ _ => .isTrue nofun
  | .interrupt _ => .isTrue nofun

theorem OwnDeaths.ownReaps (h : σ.OwnDeaths l σ') : σ.OwnReaps l σ' := by
  intro i env c hl hi hreap
  obtain ⟨pid, hpid, hc⟩ := reaps_mem hreap
  exact h i env hl hi pid hpid c hc

/-- The only scheduler reaps no foreign child. -/
theorem Regular.ownReaps_along (hσ : σ.Regular) (h1 : σ.count = 1) (ls : List Label) :
    machine.Along OwnReaps ls σ :=
  Transition.System.along_of_invariant (I := fun τ => τ.Regular ∧ τ.count = 1)
    (fun l _ τ' hτ _ => (hτ.1.ownDeaths hτ.2 l τ').ownReaps)
    (fun _ _ _ hτ h => ⟨hτ.1.step h, (hτ.1.frame_of_step h).count.trans hτ.2⟩) ⟨hσ, h1⟩

theorem OwnReaps.own {es : List Entry} (h : σ.OwnReaps l σ') (hes : l.Entries σ es) :
    ∀ e ∈ es, e.Own := by
  cases hes with
  | @thread i env es hi hs =>
    have hown : ∀ {c}, (σ.thread i).reaps (env 0) σ.os = some c → c.thread = i :=
      fun {c} hc => h i env c rfl hi hc
    cases hs with
    | death hreap => simpa [Entry.Own] using hown hreap
    | restart hreap => simpa [Entry.Own] using hown hreap
    | stray hreap => simpa [Entry.Own] using hown hreap
    | _ => simp [Entry.Own]
  | dies => simp [Entry.Own]
  | leaves => simp [Entry.Own]
  | quiet => simp

/-- What an entry about an own child keeps beside the books, a step keeps. -/
theorem Kept.exec_own {I : Books → Prop} {Q : Entry → Prop} (hσ : σ.Kept)
    (h : machine.step l σ = .ok σ') (hown : σ.OwnReaps l σ')
    (hQ : ∀ es, l.Entries σ es → ∀ e ∈ es, Q e) (hI : I σ.books)
    (hstep : ∀ e b b', Sound b → I b → e.Own → Q e → supervisor.step e b = .ok b' → I b') :
    σ'.Kept ∧ I σ'.books := by
  obtain ⟨-, es, hes, hexec⟩ := step_entries hσ.self h
  obtain ⟨hsound, hI'⟩ := Transition.System.exec_invariant_of_forall
    (I := fun b => Sound b ∧ I b) (P := fun e => e.Own ∧ Q e)
    (fun e b b' he hb hl => ⟨hb.1.step hl he.1, hstep e b b' hb.1 hb.2 he.1 he.2 hl⟩)
    (fun e he => ⟨hown.own hes e he, hQ es hes e he⟩) ⟨hσ.sound, hI⟩ hexec
  exact ⟨⟨hσ.toRegular.step h, hsound⟩, hI'⟩

theorem Kept.step_own (hσ : σ.Kept) (h : machine.step l σ = .ok σ') (hown : σ.OwnReaps l σ') :
    σ'.Kept :=
  (hσ.exec_own (I := fun _ => True) (Q := fun _ => True) h hown (fun _ _ _ _ => trivial) trivial
    fun _ _ _ _ _ _ _ _ => trivial).1

theorem Initial.kept_of_along (h₀ : σ₀.Initial) (hown : machine.Along OwnReaps ls σ₀)
    (h : machine.exec ls σ₀ = .ok σ) : σ.Kept :=
  Transition.System.always_iff_prefixes.1 (Transition.System.always_of_along
    (fun _ _ _ hτ hl ho => hτ.step_own hl ho) h₀.kept hown) ls List.prefix_rfl σ h

/-- A scheduler that reaps a foreign child leaves its owner with an entry for a process that is
gone. -/
theorem Kept.not_sound (hσ : σ.Kept) (h : machine.step l σ = .ok σ') (hown : ¬σ.OwnReaps l σ') :
    ¬Sound σ'.books := by
  simp only [OwnReaps, not_forall] at hown
  obtain ⟨i, env, c, rfl, hi, hreap, hthread⟩ := hown
  have hc := Thread.mem_children_of_reaps hreap
  have hrun : (σ.thread i).s.running c.pid = none := hσ.sound.not_found hc hthread
  rw [step_thread hi (Thread.step_stray hreap hrun)] at h
  cases h
  intro hsound
  have hstays : (σ.put i { σ.thread i with pc := .returned }
      (σ.os.reap (σ.thread i).s.self c none 0)).books.running c.thread c.pid = some c.owner := by
    rw [← hσ.sound.found hc rfl, put_books, σ.books_eq i]
    rfl
  have hpos := hσ.sound.pos _ (OS.mem_kids hc)
  rcases hsound.only _ _ _ hstays with hzero | hkid
  · exact absurd hzero hpos.ne'
  · exact (OS.mem_reap_kids.1 hkid).2 rfl

/-- The books are sound in every state of a run exactly when every child that is reaped in it is
reaped by the scheduler that forked it. -/
theorem sound_iff (h₀ : σ₀.Initial) (ls : List Label) :
    machine.Along OwnReaps ls σ₀ ↔ machine.Always (fun σ => Sound σ.books) ls σ₀ := by
  constructor
  · intro h
    exact (Transition.System.always_of_along (fun _ _ _ hτ hl ho => hτ.step_own hl ho) h₀.kept
      h).mono fun _ hτ => hτ.sound
  · intro h
    by_contra hno
    obtain ⟨pre, l, post, τ, τ', rfl, hpre, hexec, hl, hown⟩ :=
      Transition.System.exists_step_of_not_along hno
    have hkept := h₀.kept_of_along hpre hexec
    refine hkept.not_sound hl hown ?_
    exact Transition.System.always_iff_prefixes.1 h (pre ++ [l]) ⟨post, by simp⟩ τ'
      (Transition.System.exec_append_eq_ok.2 ⟨τ, hexec, Transition.System.exec_singleton hl⟩)

/-- Two schedulers start their programs; the processes die in turn, each when the other one is not
waited for, and each is reaped by the scheduler that forked it. -/
def takenInTurn : List Label :=
  List.replicate 6 (.thread 0 fun _ => {}) ++ List.replicate 5 (.thread 1 fun _ => {}) ++
    [.dies 2 0] ++ List.replicate 3 (.thread 1 fun _ => {}) ++ [.dies 1 256] ++
    List.replicate 4 (.thread 0 fun _ => {})

/-- What a scheduler could reap is its own. -/
def OwnZombies (σ : Process) (_ : Label) (_ : Process) : Prop :=
  ∀ i < σ.count, ∀ pid ∈ (σ.thread i).waitsFor.toList, ∀ c ∈ σ.os.zombies pid, c.thread = i

instance (σ : Process) (l : Label) (σ' : Process) : Decidable (σ.OwnZombies l σ') :=
  inferInstanceAs (Decidable (∀ i < σ.count, _))

theorem OwnZombies.ownReaps (h : σ.OwnZombies l σ') : σ.OwnReaps l σ' :=
  OwnDeaths.ownReaps fun i _ _ hi pid hpid c hc => h i hi pid (by simp [hpid]) c hc

theorem sound_iff_sleepers :
    (∃ σ, machine.exec takenInTurn (.configured [.sleeper, .sleeper]) = .ok σ ∧
      (σ.books.log 0).length = 2 ∧ (σ.books.log 1).length = 2) ∧
    machine.Always (fun σ => Sound σ.books) takenInTurn (.configured [.sleeper, .sleeper]) := by
  have hinit : (Process.configured [.sleeper, .sleeper]).Initial :=
    configured_initial (by simp [SchedulerConfig.sleeper_fresh])
  have hown : machine.Along OwnZombies takenInTurn (.configured [.sleeper, .sleeper]) := by decide
  refine ⟨⟨_, rfl, by decide, by decide⟩, (sound_iff hinit takenInTurn).1 ?_⟩
  exact hown.mono fun _ _ _ => OwnZombies.ownReaps

end Process

/-! ## The life of a program -/

/-- Whether program `p` has a process after an event; nothing where the event is out of turn. -/
def lifeStep (p : ProgPtr) (alive : Bool) (ev : Event) : Option Bool :=
  if ev.aboutProcess ∧ ev.program = p then
    if ev.eventType = .start then if alive then none else some true
    else if alive then some false else none
  else some alive

/-- The same after all events of a list. -/
def life (p : ProgPtr) (log : List Event) : Option Bool := log.foldlM (lifeStep p) false

theorem life_append (p : ProgPtr) (log evs : List Event) :
    life p (log ++ evs) = (life p log).bind fun alive => evs.foldlM (lifeStep p) alive :=
  List.foldlM_append

theorem life_aboutProcess (p : ProgPtr) (log : List Event) :
    life p (log.filter Event.aboutProcess) = life p log := by
  unfold life
  generalize false = alive
  induction log generalizing alive with
  | nil => rfl
  | cons ev log ih =>
    rw [List.filter_cons]
    by_cases hev : ev.aboutProcess
    · rw [if_pos hev, List.foldlM_cons, List.foldlM_cons]
      exact congrArg (Option.bind (lifeStep p alive ev)) (funext fun _ => ih _)
    · have hstep : lifeStep p alive ev = some alive := if_neg fun h => hev h.1
      rw [if_neg hev, List.foldlM_cons, hstep, ih]
      rfl

/-- The events of other programs do not matter. -/
theorem foldlM_lifeStep_of_ne {p : ProgPtr} {evs : List Event} (h : ∀ ev ∈ evs, ev.program ≠ p)
    (alive : Bool) : evs.foldlM (lifeStep p) alive = some alive := by
  induction evs with
  | nil => rfl
  | cons ev evs ih =>
    obtain ⟨hev, h⟩ := List.forall_mem_cons.1 h
    have hstep : lifeStep p alive ev = some alive := if_neg fun he => hev he.2
    rw [List.foldlM_cons, hstep]
    exact ih h

/-- Scheduler `i` logs the death it is about, with its wait status. -/
def Entry.LoggedBy (i : ℕ) : Entry → Prop
  | .bury j c p ev => j = i →
    ∃ now, ev = some ⟨now, deathType (c.status.getD 0), p, c.status.getD 0⟩
  | _ => True

/-- The event list of its scheduler tells the life of a program. -/
def Books.Told (k : Key) (b : Books) : Prop :=
  b.limited k = false ∧ life k.2 (b.log k.1) = some (decide (b.slot k ≠ 0))

namespace Books.Told

variable {b b' : Books} {k : Key}

theorem fork (hb : b.Told k) {k' : Key} (hk : b.slot k' = 0) (hint t : ℤ) :
    (b.fork k' hint t).Told k := by
  refine ⟨hb.1, ?_⟩
  obtain ⟨i, p⟩ := k
  rw [show (b.fork k' hint t).log = Function.update b.log k'.1 _ from rfl, update_log, life_append,
    hb.2, Option.bind_some]
  by_cases he : (i, p) = k'
  · subst he
    have hpos := (b.os.freshPid_pos hint).ne'
    simp [Books.fork, hk, hpos, lifeStep, Event.aboutProcess]
  · have hslot : (b.fork k' hint t).slot (i, p) = b.slot (i, p) := Function.update_of_ne he ..
    simp only [hslot]
    apply foldlM_lifeStep_of_ne
    intro ev hev hp
    split_ifs at hev with hi
    · simp only [List.mem_singleton] at hev
      subst hev
      exact he (Prod.ext hi hp.symm)
    · cases hev

theorem bury (hb : b.Told k) (hs : Sound b) {i : ℕ} {c : Child} {p : ProgPtr} {ev : Option Event}
    (hc : c ∈ b.os.children) (hp : b.running i c.pid = some p) (hi : c.thread = i)
    (hev : ∀ e ∈ ev, e.program = p ∧ (e.eventType = .ended ∨ e.eventType = .crash))
    (hlog : i = k.1 → ev.isSome) : (b.bury i c p ev).Told k := by
  refine ⟨hb.1, ?_⟩
  have hkey := hs.key_of_found hc hi hp
  obtain ⟨j, q⟩ := k
  rw [show (b.bury i c p ev).log = Function.update b.log i _ from rfl, update_log, life_append,
    hb.2, Option.bind_some]
  by_cases he : (j, q) = (i, p)
  · obtain ⟨rfl, rfl⟩ := Prod.mk.inj he
    obtain ⟨ev, rfl⟩ := Option.isSome_iff_exists.1 (hlog rfl)
    have hkid := OS.mem_kids hc
    -- the process that is buried is the one under the pid of the program
    have hslot : b.slot (j, q) ≠ 0 := by
      rw [← hkey, hs.sole _ hkid (by rw [hkey]; exact hb.1)]
      exact (hs.pos _ hkid).ne'
    obtain ⟨hprog, hty | hty⟩ := hev ev rfl <;>
      simp [Books.bury, hslot, lifeStep, Event.aboutProcess, hprog, hty]
  · have hslot : (b.bury i c p ev).slot (j, q) = b.slot (j, q) := Function.update_of_ne he ..
    simp only [hslot]
    apply foldlM_lifeStep_of_ne
    intro e he' hq
    split_ifs at he' with hj
    · obtain ⟨hprog, -⟩ := hev e (by simpa using he')
      exact he (Prod.ext hj (hq.symm.trans hprog))
    · cases he'

theorem step (hb : b.Told k) (hs : Sound b) {e : Entry} (h : supervisor.step e b = .ok b')
    (hown : e.Own) (hlog : e.LoggedBy k.1) : b'.Told k := by
  cases e with
  | fork k' hint t =>
    obtain ⟨hk, rfl⟩ := step_fork.1 h
    exact hb.fork hk hint t
  | enter k' => cases h; exact hb
  | signal k' sig cause ok =>
    obtain ⟨-, rfl⟩ := step_signal.1 h
    exact hb
  | expire k' sig ok =>
    obtain ⟨⟨-, hlim⟩, rfl⟩ := step_expire.1 h
    have hne : k ≠ k' := by
      rintro rfl
      exact absurd (hlim.symm.trans hb.1) (by simp)
    have hslot : (b.expire k' sig ok).slot k = b.slot k := Function.update_of_ne hne ..
    refine ⟨hb.1, ?_⟩
    simp only [hslot]
    exact hb.2
  | bury i c p ev =>
    obtain ⟨hk, rfl⟩ := step_bury.1 h
    refine hb.bury hs hk.1 hk.2.1 hown hk.2.2 fun hi => ?_
    obtain ⟨now, rfl⟩ := hlog hi
    rfl
  | lose i c => exact absurd h (hs.not_lose hown)
  | dies pid status => cases h; exact hb
  | leaves pid => cases h; exact hb

end Books.Told

namespace Process

variable {σ₀ σ σ' : Process} {l : Label} {ls : List Label} {i : ℕ} {p : ProgPtr}

/-- The reaper of the main loop of scheduler `i` logs every death. -/
theorem Regular.loggedBy (hσ : σ.Regular) (hloop : (σ.thread i).inLoop) {es : List Entry}
    (hes : l.Entries σ es) : ∀ e ∈ es, e.LoggedBy i := by
  cases hes with
  | @thread j env es hj hs =>
    have hev : ∀ {c p ev}, (σ.thread j).Logs c p ev → j = i →
        ∃ now, ev = some ⟨now, deathType (c.status.getD 0), p, c.status.getD 0⟩ := by
      rintro c p ev h rfl
      exact h hloop (hσ.stopMode j hj p)
    cases hs with
    | death _ h => simpa [Entry.LoggedBy] using hev h
    | restart _ h => simpa [Entry.LoggedBy] using hev h
    | _ => simp [Entry.LoggedBy]
  | dies => simp [Entry.LoggedBy]
  | leaves => simp [Entry.LoggedBy]
  | quiet => simp

theorem Kept.told (hσ : σ.Kept) (hb : (σ.thread i).inLoop → σ.books.Told (i, p))
    (h : machine.step l σ = .ok σ') (hown : σ.OwnReaps l σ') (hloop : (σ'.thread i).inLoop) :
    σ'.books.Told (i, p) := by
  have hloop := inLoop_of_step h hloop
  exact (hσ.exec_own h hown (fun es hes => hσ.toRegular.loggedBy hloop hes) (hb hloop)
    fun e b b' hs hb he hlog hstep => hb.step hs hstep he hlog).2

/-- In the main loop of its scheduler, the starts and deaths of a program without `maxruntime`
stand in the event list in turn, and the last of them is what the pid field says. -/
theorem log_alternates (h₀ : σ₀.Initial) (hown : machine.Along OwnReaps ls σ₀)
    (h : machine.exec ls σ₀ = .ok σ) (hloop : (σ.thread i).inLoop)
    (hlim : ((σ₀.thread i).s.prog p).limits.maxruntime = -1) :
    life p (σ.thread i).s.elist = some (decide (((σ.thread i).s.prog p).pid ≠ 0)) := by
  have hstart : σ₀.Kept ∧ ((σ₀.thread i).inLoop → σ₀.books.Told (i, p)) := by
    refine ⟨h₀.kept, fun _ => ⟨decide_eq_false (not_not.2 hlim), ?_⟩⟩
    have hlog : σ₀.books.log i = [] := by
      rw [show σ₀.books.log i = (σ₀.thread i).s.elist.filter Event.aboutProcess from rfl,
        (h₀.scheduler i).elist, List.filter_nil]
    have hslot : σ₀.books.slot (i, p) = 0 := (h₀.scheduler i).pid p
    simp [hlog, hslot, life]
  obtain ⟨-, htold⟩ := Transition.System.always_iff_prefixes.1
    (Transition.System.always_of_along (I := fun σ => σ.Kept ∧
        ((σ.thread i).inLoop → σ.books.Told (i, p)))
      (fun l σ σ' hσ h ho => ⟨hσ.1.step_own h ho, hσ.1.told hσ.2 h ho⟩) hstart hown)
    ls List.prefix_rfl σ h
  have hlife := (htold hloop).2
  rwa [show σ.books.log (i, p).1 = (σ.thread i).s.elist.filter Event.aboutProcess from rfl,
    life_aboutProcess] at hlife

theorem log_alternates_sleeper : ∃ σ, machine.exec lifeAndDeath (.configured [.sleeper]) = .ok σ ∧
    life 0 (σ.thread 0).s.elist = some (decide (((σ.thread 0).s.prog 0).pid ≠ 0)) := by
  obtain ⟨σ, hσ, hloop⟩ : ∃ σ, machine.exec lifeAndDeath (.configured [.sleeper]) = .ok σ ∧
      (σ.thread 0).inLoop := ⟨_, rfl, rfl⟩
  have hown := sleeper_initial.regular.ownReaps_along rfl lifeAndDeath
  exact ⟨σ, hσ, log_alternates sleeper_initial hown hσ hloop rfl⟩

end Process

end Peter
