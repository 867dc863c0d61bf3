import Mathlib.Data.List.Count
import Peter.Runs

/-!
# Bookkeeping and the event log

For a PETeR with one scheduler: the pid fields and the `running` map describe the unreaped children
in every state (`bookkeeping`), and while the scheduler is in its main loop every start and every
death of a process stands in the event list once (`log_conservation`).
-/

namespace Peter

/-! ## Signals -/

/-- A signal is aimed at an unreaped child of the program that sends it. -/
def Obs.Aimed : Obs → Prop
  | .kill i p _ _ target => target = some (i, p)
  | _ => True

theorem Sound.aimed {b b' : Books} {e : Entry} (hb : Sound b) (ht : ∀ o ∈ b.os.trace, o.Aimed)
    (h : supervisor.step e b = .ok b') : ∀ o ∈ b'.os.trace, o.Aimed := by
  refine (forall_mem_trace h).2 ⟨ht, ?_⟩
  cases e with
  | signal k sig cause ok =>
    have hk := (step_signal.1 h).1
    simpa [Entry.obs, Obs.Aimed] using hb.childOf_slot hk.1
  | expire k sig ok =>
    have hk := (step_expire.1 h).1
    simpa [Entry.obs, Obs.Aimed] using hb.childOf_slot hk.1
  | _ => simp [Entry.obs, Obs.Aimed]

/-! ## Bookkeeping -/

/-- The scheduler object of a process that has one. -/
abbrev Process.sched (σ : Process) : Scheduler := (σ.thread 0).s

/-- The books of the only scheduler are exact. -/
structure Process.Bookkept (σ : Process) : Prop where
  /-- A pid that is not 0 is that of an unreaped child that the program forked, … -/
  held : ∀ p, (σ.sched.prog p).pid ≠ 0 →
    ∃ c ∈ σ.os.children, c.pid = (σ.sched.prog p).pid ∧ c.thread = 0 ∧ c.owner = p
  /-- … stands in the `running` map, … -/
  known : ∀ p, (σ.sched.prog p).pid ≠ 0 → σ.sched.running (σ.sched.prog p).pid = some p
  /-- … and no signal ever went to another one. -/
  aimed : ∀ o ∈ σ.os.trace, o.Aimed
  distinct : ∀ p q, (σ.sched.prog p).pid ≠ 0 → (σ.sched.prog p).pid = (σ.sched.prog q).pid → p = q
  /-- Without `maxruntime` a program has one child at most, and then its pid. -/
  sole : ∀ p, (σ.sched.prog p).limits.maxruntime = -1 →
    (σ.os.children.filter fun c => c.owner = p).length ≤ 1 ∧
      ((σ.sched.prog p).pid = 0 ↔ ∀ c ∈ σ.os.children, c.owner ≠ p)

theorem length_le_one_of_nodup {α : Type*} {l : List α} (hnd : l.Nodup)
    (h : ∀ a ∈ l, ∀ b ∈ l, a = b) : l.length ≤ 1 := by
  rcases l with _ | ⟨a, _ | ⟨b, l⟩⟩
  · simp
  · simp
  · have hab : a = b := h a (by simp) b (by simp)
    simp [hab] at hnd

namespace Process

variable {σ₀ σ : Process}

theorem Kept.thread_zero (hσ : σ.Kept) (h1 : σ.count = 1) {c : Child} (hc : c ∈ σ.os.children) :
    c.thread = 0 := by
  have : c.thread < σ.count := hσ.homed _ (OS.mem_kids hc)
  omega

theorem Kept.bookkept (hσ : σ.Kept) (h1 : σ.count = 1) (ht : ∀ o ∈ σ.os.trace, o.Aimed) :
    σ.Bookkept := by
  have hs := hσ.sound
  have hslot : ∀ p, σ.books.slot (0, p) = (σ.sched.prog p).pid := fun _ => rfl
  have hheld : ∀ p, (σ.sched.prog p).pid ≠ 0 →
      ∃ c ∈ σ.os.children, c.pid = (σ.sched.prog p).pid ∧ c.thread = 0 ∧ c.owner = p := by
    intro p hp
    obtain ⟨c, hc, hpid, hkey⟩ := OS.exists_of_mem_kids (hs.held (0, p) hp)
    exact ⟨c, hc, hpid, congrArg Prod.fst hkey, congrArg Prod.snd hkey⟩
  have hsole : ∀ p, (σ.sched.prog p).limits.maxruntime = -1 → ∀ c ∈ σ.os.children, c.owner = p →
      (σ.sched.prog p).pid = c.pid := by
    rintro p hlim c hc rfl
    have hkey : c.key = (0, c.owner) := Prod.ext (hσ.thread_zero h1 hc) rfl
    have hl : σ.books.limited c.key = false := by
      rw [hkey]
      exact decide_eq_false (not_not.2 hlim)
    have := hs.sole _ (OS.mem_kids hc) hl
    rwa [hkey, hslot] at this
  constructor
  case held => exact hheld
  case known => exact fun p hp => hs.slot_known (k := (0, p)) hp
  case aimed => exact ht
  case distinct =>
    intro p q hp he
    have hpair : ((0, p) : Key) = (0, q) := hs.slot_inj hp he
    exact congrArg Prod.snd hpair
  case sole =>
    intro p hlim
    constructor
    · have hnd : σ.os.children.Nodup := hs.pids_nodup.of_map _
      apply length_le_one_of_nodup (hnd.filter _)
      intro c hc d hd
      simp only [List.mem_filter, decide_eq_true_eq] at hc hd
      have he : c.pid = d.pid :=
        (hsole p hlim c hc.1 hc.2).symm.trans (hsole p hlim d hd.1 hd.2)
      exact hs.child_eq hc.1 hd.1 he
    · constructor
      · intro h0 c hc hown
        have := hs.pos _ (OS.mem_kids hc)
        have := hsole p hlim c hc hown
        simp only at *
        omega
      · intro hnone
        by_contra hp
        obtain ⟨c, hc, -, -, hown⟩ := hheld p hp
        exact hnone c hc hown

theorem Kept.aimed {l : Label} {σ' : Process} (hσ : σ.Kept) (h1 : σ.count = 1)
    (ht : ∀ o ∈ σ.os.trace, o.Aimed) (h : machine.step l σ = .ok σ') :
    ∀ o ∈ σ'.os.trace, o.Aimed := by
  obtain ⟨-, es, hes, hexec⟩ := step_entries hσ.self h
  have hstep : ∀ e b b', e.Own → Sound b ∧ (∀ o ∈ b.os.trace, o.Aimed) →
      supervisor.step e b = .ok b' → Sound b' ∧ ∀ o ∈ b'.os.trace, o.Aimed :=
    fun e b b' he hb hstep => ⟨hb.1.step hstep he, hb.1.aimed hb.2 hstep⟩
  exact (Transition.System.exec_invariant_of_forall hstep
    ((hσ.ownDeaths h1 l σ').own hes) ⟨hσ.sound, ht⟩ hexec).2

/-- In every state that a PETeR with one scheduler reaches, its books are exact. -/
theorem bookkeeping {ls : List Label} (h₀ : σ₀.Initial) (h1 : σ₀.count = 1)
    (h : machine.exec ls σ₀ = .ok σ) : σ.Bookkept := by
  have hstep : ∀ l τ τ', τ.Kept ∧ τ.count = 1 ∧ (∀ o ∈ τ.os.trace, o.Aimed) →
      machine.step l τ = .ok τ' → τ'.Kept ∧ τ'.count = 1 ∧ ∀ o ∈ τ'.os.trace, o.Aimed := by
    rintro l τ τ' ⟨hτ, hc, ht⟩ hl
    obtain ⟨hτ', hc'⟩ := hτ.step_lone hc hl
    exact ⟨hτ', hc', hτ.aimed hc ht hl⟩
  obtain ⟨hσ, hc, ht⟩ := Transition.System.exec_invariant hstep
    ⟨h₀.kept, h1, by simp [h₀.trace]⟩ h
  exact hσ.bookkept hc ht

/-- A started program: the first pass has forked its process. -/
theorem bookkeeping_sleeper : ∃ σ, machine.exec (List.replicate 2 (.thread 0 fun _ => {}))
      (.configured [.sleeper]) = .ok σ ∧ σ.os.pids = [1] ∧ σ.Bookkept := by
  obtain ⟨σ, hσ, hpid⟩ : ∃ σ, machine.exec (List.replicate 2 (.thread 0 fun _ => {}))
      (.configured [.sleeper]) = .ok σ ∧ σ.os.pids = [1] := ⟨_, rfl, rfl⟩
  exact ⟨σ, hσ, hpid, bookkeeping sleeper_initial rfl hσ⟩

end Process

/-! ## The event list -/

/-- The `EVT_START` events of a program. -/
def startsIn (log : List Event) (p : ProgPtr) : ℕ :=
  log.countP fun ev => ev.eventType = .start ∧ ev.program = p

/-- The `EVT_END` and `EVT_CRASH` events of a program. -/
def deathsIn (log : List Event) (p : ProgPtr) : ℕ :=
  log.countP fun ev => (ev.eventType = .ended ∨ ev.eventType = .crash) ∧ ev.program = p

theorem startsIn_aboutProcess (log : List Event) (p : ProgPtr) :
    startsIn (log.filter Event.aboutProcess) p = startsIn log p := by
  refine countP_aboutProcess (fun ev h => ?_) log
  simp only [Event.aboutProcess, decide_eq_true_eq] at h ⊢
  tauto

theorem deathsIn_aboutProcess (log : List Event) (p : ProgPtr) :
    deathsIn (log.filter Event.aboutProcess) p = deathsIn log p := by
  refine countP_aboutProcess (fun ev h => ?_) log
  simp only [Event.aboutProcess, decide_eq_true_eq] at h ⊢
  tauto

@[simp] theorem startsIn_append (l l' : List Event) (p : ProgPtr) :
    startsIn (l ++ l') p = startsIn l p + startsIn l' p := List.countP_append

@[simp] theorem deathsIn_append (l l' : List Event) (p : ProgPtr) :
    deathsIn (l ++ l') p = deathsIn l p + deathsIn l' p := List.countP_append

theorem update_log (log : ℕ → List Event) (i : ℕ) (evs : List Event) (j : ℕ) :
    Function.update log i (log i ++ evs) j = log j ++ if j = i then evs else [] := by
  by_cases hj : j = i
  · simp [hj]
  · simp [hj]

/-- The number of unreaped children of a program. -/
def OS.kidsOf (os : OS) (k : Key) : ℕ := os.kids.countP fun d => d.2 = k

/-- Every start and every death of every program is logged once. -/
structure Balanced (b : Books) : Prop where
  starts : ∀ k, startsIn (b.log k.1) k.2 = b.starts k
  deaths : ∀ k, b.starts k = deathsIn (b.log k.1) k.2 + b.os.kidsOf k

/-- The entry logs the death it is about. -/
def Entry.Logged : Entry → Prop
  | .bury _ _ _ ev => ev.isSome
  | _ => True

namespace Balanced

variable {b b' : Books}

theorem of_kids (hb : Balanced b) {os : OS} {slot : Key → ℤ} {running : ℕ → ℤ → Option ProgPtr}
    (h : os.kids = b.os.kids) : Balanced { b with os, slot, running } := by
  refine ⟨hb.starts, fun k => ?_⟩
  rw [OS.kidsOf, h]
  exact hb.deaths k

theorem fork (hb : Balanced b) (k : Key) (hint t : ℤ) : Balanced (b.fork k hint t) := by
  have hkids : ∀ k', (b.fork k hint t).os.kidsOf k' =
      b.os.kidsOf k' + if k = k' then 1 else 0 := by
    intro k'
    rw [OS.kidsOf, show (b.fork k hint t).os.kids = _ from OS.fork_kids b.os k.1 k.2 hint,
      List.countP_append]
    by_cases he : k = k' <;> simp [he, OS.kidsOf]
  have hstarts : ∀ k', (b.fork k hint t).starts k' = b.starts k' + if k = k' then 1 else 0 := by
    intro k'
    by_cases he : k = k'
    · simp [Books.fork, he]
    · simp [Books.fork, he, Function.update_of_ne (Ne.symm he)]
  have hlog : ∀ k' : Key, startsIn ((b.fork k hint t).log k'.1) k'.2 =
      startsIn (b.log k'.1) k'.2 + if k = k' then 1 else 0 := by
    rintro ⟨i, p⟩
    simp only [Books.fork, update_log, startsIn_append]
    by_cases hi : i = k.1 <;> by_cases hp : k.2 = p <;> simp [startsIn, Prod.ext_iff, hi, hp]
    exact fun h => absurd h.symm hi
  have hdeaths : ∀ k' : Key, deathsIn ((b.fork k hint t).log k'.1) k'.2 =
      deathsIn (b.log k'.1) k'.2 := by
    rintro ⟨i, p⟩
    simp only [Books.fork, update_log, deathsIn_append]
    by_cases hi : i = k.1 <;> simp [deathsIn, hi]
  constructor <;> intro k'
  · rw [hlog, hstarts, hb.starts]
  · rw [hdeaths, hstarts, hkids, hb.deaths]
    omega

/-- Reaping takes one child of one program away. -/
theorem kidsOf_reap (hs : Sound b) {c : Child} (hc : c ∈ b.os.children) (i : ℕ)
    (p : Option ProgPtr) (slot : ℤ) (k : Key) :
    b.os.kidsOf k = (b.os.reap i c p slot).kidsOf k + if c.key = k then 1 else 0 := by
  have hnd : b.os.kids.Nodup := hs.nodup.of_map _
  have herase : (b.os.reap i c p slot).kids = b.os.kids.erase (c.pid, c.key) := by
    rw [OS.reap_kids, hnd.erase_eq_filter]
    apply List.filter_congr
    intro d hd
    by_cases he : d.1 = c.pid
    · have hkey : d.2 = c.key := hs.key_eq (show (d.1, d.2) ∈ b.os.kids from hd)
        (he ▸ OS.mem_kids hc)
      simp [show d = (c.pid, c.key) from Prod.ext_iff.2 ⟨he, hkey⟩]
    · have hne : d ≠ (c.pid, c.key) := fun h => he (h ▸ rfl)
      simp [he, hne]
  have hperm := List.perm_cons_erase (OS.mem_kids hc)
  rw [OS.kidsOf, OS.kidsOf, herase, hperm.countP_eq, List.countP_cons]
  simp

theorem bury (hb : Balanced b) (hs : Sound b) {i : ℕ} {c : Child} {p : ProgPtr} {ev : Event}
    (hc : c ∈ b.os.children) (hp : b.running i c.pid = some p) (hi : c.thread = i)
    (hev : ev.program = p ∧ (ev.eventType = .ended ∨ ev.eventType = .crash)) :
    Balanced (b.bury i c p (some ev)) := by
  have hkey := hs.key_of_found hc hi hp
  have hstarts : ∀ k : Key, startsIn ((b.bury i c p (some ev)).log k.1) k.2 =
      startsIn (b.log k.1) k.2 := by
    rintro ⟨j, q⟩
    simp only [Books.bury, update_log, startsIn_append]
    by_cases hj : j = i <;> rcases hev.2 with h | h <;> simp [startsIn, hj, h]
  have hdeaths : ∀ k : Key, deathsIn ((b.bury i c p (some ev)).log k.1) k.2 =
      deathsIn (b.log k.1) k.2 + if c.key = k then 1 else 0 := by
    rintro ⟨j, q⟩
    simp only [Books.bury, update_log, deathsIn_append, hkey]
    by_cases hj : j = i <;> by_cases hq : p = q <;> rcases hev.2 with h | h <;>
      simp [deathsIn, hev.1, hj, hq, h, Ne.symm]
  constructor <;> intro k
  · exact (hstarts k).trans (hb.starts k)
  · have hkids := kidsOf_reap hs hc i (some p) (b.slot (i, p)) k
    rw [hdeaths]
    show b.starts k = _ + (b.os.reap i c (some p) (b.slot (i, p))).kidsOf k
    rw [hb.deaths k, hkids]
    omega

/-- An entry that logs the death it is about keeps the log balanced. -/
theorem step (hb : Balanced b) (hs : Sound b) {e : Entry} (h : supervisor.step e b = .ok b')
    (hown : e.Own) (hlog : e.Logged) : Balanced b' := by
  cases e with
  | fork k hint t =>
    obtain ⟨-, rfl⟩ := step_fork.1 h
    exact hb.fork k hint t
  | enter k => cases h; exact hb.of_kids rfl
  | signal k sig cause ok =>
    obtain ⟨-, rfl⟩ := step_signal.1 h
    exact hb.of_kids (OS.kill_kids ..)
  | expire k sig ok =>
    obtain ⟨-, rfl⟩ := step_expire.1 h
    exact hb.of_kids (OS.kill_kids ..)
  | bury i c p ev =>
    obtain ⟨hk, rfl⟩ := step_bury.1 h
    obtain ⟨ev, rfl⟩ := Option.isSome_iff_exists.1 hlog
    exact hb.bury hs hk.1 hk.2.1 hown (hk.2.2 ev rfl)
  | lose i c => exact absurd h (hs.not_lose hown)
  | dies pid status => cases h; exact hb.of_kids (OS.dies_kids ..)
  | leaves pid => cases h; exact hb.of_kids (OS.leaves_kids ..)

end Balanced

/-! ## Conservation -/

namespace Process

variable {σ₀ σ σ' : Process}

theorem Initial.balanced (h : σ.Initial) : Balanced σ.books := by
  have hlog : ∀ i, σ.books.log i = [] := fun i => by
    rw [show σ.books.log i = (σ.thread i).s.elist.filter Event.aboutProcess from rfl,
      (h.scheduler i).elist, List.filter_nil]
  have hstarts : ∀ k, σ.books.starts k = 0 := fun k => (h.scheduler k.1).starts k.2
  constructor
  · simp [hlog, hstarts, startsIn]
  · simp [hlog, hstarts, deathsIn, OS.kidsOf, h.kids]

theorem inLoop_of_step {l : Label} {i : ℕ} (h : machine.step l σ = .ok σ')
    (hloop : (σ'.thread i).inLoop) : (σ.thread i).inLoop := by
  rcases thread_of_step h i with ⟨env, t, os, -, -, hstep, rfl, -⟩ | ⟨-, s, -, he⟩
  · exact Thread.inLoop_of_step hstep hloop
  · rw [he] at hloop
    exact hloop

/-- The reaper of the main loop logs every death. -/
theorem Regular.logged (hσ : σ.Regular) (h1 : σ.count = 1) (hloop : (σ.thread 0).inLoop)
    {l : Label} {es : List Entry} (hes : l.Entries σ es) : ∀ e ∈ es, e.Logged := by
  cases hes with
  | @thread i env es hi hs =>
    obtain rfl : i = 0 := by omega
    have hev : ∀ {c p ev}, (σ.thread 0).Logs c p ev → ev.isSome := by
      intro c p ev h
      obtain ⟨now, rfl⟩ := h hloop (hσ.stopMode 0 hi p)
      rfl
    cases hs with
    | death _ h => simpa [Entry.Logged] using hev h
    | restart _ h => simpa [Entry.Logged] using hev h
    | _ => simp [Entry.Logged]
  | dies => simp [Entry.Logged]
  | leaves => simp [Entry.Logged]
  | quiet => simp

theorem Kept.balanced {l : Label} (hσ : σ.Kept) (h1 : σ.count = 1)
    (hb : (σ.thread 0).inLoop → Balanced σ.books) (h : machine.step l σ = .ok σ')
    (hloop : (σ'.thread 0).inLoop) : Balanced σ'.books := by
  have hloop := inLoop_of_step h hloop
  obtain ⟨-, es, hes, hexec⟩ := step_entries hσ.self h
  have hstep : ∀ e b b', e.Own ∧ e.Logged → Sound b ∧ Balanced b →
      supervisor.step e b = .ok b' → Sound b' ∧ Balanced b' :=
    fun e b b' he hb hstep => ⟨hb.1.step hstep he.1, hb.2.step hb.1 hstep he.1 he.2⟩
  have hgood : ∀ e ∈ es, e.Own ∧ e.Logged := fun e he =>
    ⟨(hσ.ownDeaths h1 l σ').own hes e he, hσ.toRegular.logged h1 hloop hes e he⟩
  exact (Transition.System.exec_invariant_of_forall hstep hgood ⟨hσ.sound, hb hloop⟩ hexec).2

/-- In the main loop of the only scheduler, the starts of a program are its `EVT_START` events, and
each of them has its death in the event list or its child unreaped. -/
theorem log_conservation {ls : List Label} (h₀ : σ₀.Initial) (h1 : σ₀.count = 1)
    (h : machine.exec ls σ₀ = .ok σ) (hloop : (σ.thread 0).inLoop) (p : ProgPtr) :
    startsIn σ.sched.elist p = (σ.sched.prog p).starts ∧
    (σ.sched.prog p).starts = deathsIn σ.sched.elist p +
      (σ.os.children.filter fun c => c.owner = p).length := by
  have hstep : ∀ l τ τ', τ.Kept ∧ τ.count = 1 ∧ ((τ.thread 0).inLoop → Balanced τ.books) →
      machine.step l τ = .ok τ' →
      τ'.Kept ∧ τ'.count = 1 ∧ ((τ'.thread 0).inLoop → Balanced τ'.books) := by
    rintro l τ τ' ⟨hτ, hc, hb⟩ hl
    obtain ⟨hτ', hc'⟩ := hτ.step_lone hc hl
    exact ⟨hτ', hc', hτ.balanced hc hb hl⟩
  obtain ⟨hσ, hc, hb⟩ := Transition.System.exec_invariant hstep
    ⟨h₀.kept, h1, fun _ => h₀.balanced⟩ h
  have hb := hb hloop
  have hkids : σ.os.kidsOf (0, p) = (σ.os.children.filter fun c => c.owner = p).length := by
    rw [OS.kidsOf, OS.kids, List.countP_map, List.countP_eq_length_filter]
    congr 1
    apply List.filter_congr
    intro c hc'
    simp [Child.key, hσ.thread_zero hc hc']
  have hs := hb.starts (0, p)
  have hd := hb.deaths (0, p)
  rw [show σ.books.log (0, p).1 = σ.sched.elist.filter Event.aboutProcess from rfl] at hs hd
  rw [startsIn_aboutProcess] at hs
  rw [deathsIn_aboutProcess, show σ.books.os.kidsOf (0, p) = _ from hkids] at hd
  exact ⟨hs, hd⟩

/-- A program that was started, has died and has been reaped. -/
theorem log_conservation_sleeper : ∃ σ, machine.exec
      (List.replicate 2 (.thread 0 fun _ => {}) ++ [.dies 1 0] ++
        List.replicate 7 (.thread 0 fun _ => {}))
      (.configured [.sleeper]) = .ok σ ∧ σ.sched.elist.length = 2 ∧
    startsIn σ.sched.elist 0 = (σ.sched.prog 0).starts ∧
    (σ.sched.prog 0).starts = deathsIn σ.sched.elist 0 +
      (σ.os.children.filter fun c => c.owner = 0).length := by
  obtain ⟨σ, hσ, hloop, hlog⟩ : ∃ σ, machine.exec
      (List.replicate 2 (.thread 0 fun _ => {}) ++ [.dies 1 0] ++
        List.replicate 7 (.thread 0 fun _ => {}))
      (.configured [.sleeper]) = .ok σ ∧ (σ.thread 0).inLoop ∧ σ.sched.elist.length = 2 :=
    ⟨_, rfl, rfl, rfl⟩
  exact ⟨σ, hσ, hlog, log_conservation sleeper_initial rfl hσ hloop 0⟩

end Process

end Peter
