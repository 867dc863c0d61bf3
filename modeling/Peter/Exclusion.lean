import Peter.Runs

/-!
# One process at a time under `maxruntime`

The `maxruntime` branch of the scheduler signals a process and drops its pid at once, so that `run`
finds the pid field 0 while the process is still there.  `mutual_exclusion_iff`: what keeps a
program from having two processes then is only that no start unit for it comes up before the old
process is reaped.
-/

namespace Peter

/-- What a recorded call should be: `run` forks no process for a program whose old process was
signalled for its runtime and is unreaped, and reaping the old one clears no newer pid. -/
def Obs.Exclusive : Obs → Prop
  | .fork _ _ _ siblings => ∀ c ∈ siblings, c.expired = false
  | .waited _ c (some _) slot => c.expired → slot = 0 ∨ slot = c.pid
  | _ => True

/-! ## The books -/

/-- Every program has one child at most, whose pid it holds unless the child is expired. -/
structure Exclusive (b : Books) : Prop where
  sound : Sound b
  single : ∀ c ∈ b.os.children, ∀ d ∈ b.os.children, c.key = d.key → c = d
  slot : ∀ c ∈ b.os.children, b.slot c.key = c.pid ∨ b.slot c.key = 0 ∧ c.expired

theorem Child.expired_append (c : Child) (s : Signal) :
    ({ c with signals := c.signals ++ [s] } : Child).expired =
      (c.expired || decide (s.cause = .limit)) := by
  simp [expired]

namespace Exclusive

variable {b b' : Books}

/-- Children may change as long as they keep their pid, their program and what expired them. -/
theorem of_map (hb : Exclusive b) {f : Child → Child} (trace : List Obs)
    (hpid : ∀ c, (f c).pid = c.pid) (hkey : ∀ c, (f c).key = c.key)
    (hexp : ∀ c, c.expired → (f c).expired) :
    Exclusive { b with os := ⟨b.os.children.map f, trace⟩ } := by
  have hkids : OS.kids ⟨b.os.children.map f, trace⟩ = b.os.kids := by
    simp only [OS.kids, List.map_map]
    exact List.map_congr_left fun c _ => Prod.ext (hpid c) (hkey c)
  constructor
  case sound => exact hb.sound.of_kids hkids
  case single =>
    intro c hc d hd h
    obtain ⟨c, hc', rfl⟩ := List.mem_map.1 hc
    obtain ⟨d, hd', rfl⟩ := List.mem_map.1 hd
    rw [hkey, hkey] at h
    rw [hb.single c hc' d hd' h]
  case slot =>
    intro c hc
    obtain ⟨c, hc', rfl⟩ := List.mem_map.1 hc
    rw [hkey, hpid]
    exact (hb.slot c hc').imp_right fun h => ⟨h.1, hexp c h.2⟩

theorem signal (hb : Exclusive b) (k : Key) (sig : ℤ) (cause : Cause) (ok : Bool) :
    Exclusive (b.signal k sig cause ok) := by
  refine hb.of_map (b.os.kill k.1 k.2 (b.slot k) sig cause ok).trace ?_ ?_ ?_
  · intro c
    split_ifs <;> rfl
  · intro c
    split_ifs <;> rfl
  · intro c hc
    split_ifs
    · rw [Child.expired_append, hc, Bool.true_or]
    · exact hc

/-- The process whose pid is dropped has just been signalled for its runtime. -/
theorem expire (hb : Exclusive b) {k : Key} (hlim : b.limited k) (sig : ℤ) (ok : Bool) :
    Exclusive (b.expire k sig ok) := by
  have hs := hb.signal k sig .limit ok
  refine ⟨hb.sound.expire hlim sig ok, hs.single, fun c hc => ?_⟩
  by_cases he : c.key = k
  · refine .inr ⟨by simp [Books.expire, he], ?_⟩
    obtain ⟨d, hd, rfl⟩ := List.mem_map.1 (show c ∈ b.os.children.map _ from hc)
    by_cases hpid : d.pid = b.slot k
    · rw [if_pos hpid, Child.expired_append]
      simp
    · rw [if_neg hpid] at he ⊢
      rcases hb.slot d hd with h | h
      · exact absurd (he ▸ h).symm hpid
      · exact h.2
  · simp only [Books.expire, Function.update_of_ne he]
    exact hs.slot c hc

theorem fork (hb : Exclusive b) {k : Key} (hk : b.slot k = 0)
    (hnone : ∀ c ∈ b.os.children, c.key = k → c.expired = false) (hint t : ℤ) :
    Exclusive (b.fork k hint t) := by
  have hfree : ∀ c ∈ b.os.children, c.key ≠ k := by
    rintro c hc rfl
    rcases hb.slot c hc with h | h
    · have := hb.sound.pos _ (OS.mem_kids hc)
      simp only at this
      omega
    · simp [hnone c hc rfl] at h
  have hmem : ∀ c, c ∈ (b.fork k hint t).os.children ↔
      c ∈ b.os.children ∨ c = { pid := b.os.freshPid hint, thread := k.1, owner := k.2 } := by
    intro c
    simp [Books.fork, OS.fork]
  constructor
  case sound => exact hb.sound.fork hk hint t
  case single =>
    intro c hc d hd h
    rcases (hmem c).1 hc with hc | rfl <;> rcases (hmem d).1 hd with hd | rfl
    · exact hb.single c hc d hd h
    · exact absurd h (hfree c hc)
    · exact absurd h.symm (hfree d hd)
    · rfl
  case slot =>
    intro c hc
    rcases (hmem c).1 hc with hc | rfl
    · simp only [Books.fork, Function.update_of_ne (hfree c hc)]
      exact hb.slot c hc
    · simp [Books.fork, Child.key]

theorem bury (hb : Exclusive b) {i : ℕ} {c : Child} {p : ProgPtr} (ev : Option Event)
    (hc : c ∈ b.os.children) (hp : b.running i c.pid = some p) (hi : c.thread = i) :
    Exclusive (b.bury i c p ev) := by
  have hkey := hb.sound.key_of_found hc hi hp
  have hmem : ∀ d, d ∈ (b.bury i c p ev).os.children → d ∈ b.os.children ∧ d.pid ≠ c.pid := by
    intro d hd
    simpa using List.mem_filter.1 hd
  refine ⟨hb.sound.bury ev hc hp hi, fun d hd d' hd' h => ?_, fun d hd => ?_⟩
  · exact hb.single d (hmem d hd).1 d' (hmem d' hd').1 h
  · obtain ⟨hd, hne⟩ := hmem d hd
    have hdk : d.key ≠ (i, p) := fun h => hne (by rw [hb.single d hd c hc (h.trans hkey.symm)])
    simp only [Books.bury, Function.update_of_ne hdk]
    exact hb.slot d hd

/-- An entry keeps one process a program, if a fork among them has no expired sibling. -/
theorem step (hb : Exclusive b) {e : Entry} (h : supervisor.step e b = .ok b') (hown : e.Own)
    (hobs : ∀ o ∈ e.obs b, o.Exclusive) : Exclusive b' := by
  cases e with
  | fork k hint t =>
    obtain ⟨hk, rfl⟩ := step_fork.1 h
    refine hb.fork hk (fun c hc hkey => ?_) hint t
    simp only [Entry.obs, List.mem_singleton, forall_eq, Obs.Exclusive] at hobs
    refine hobs c (List.mem_filter.2 ⟨hc, ?_⟩)
    rw [← hkey]
    simp [Child.key]
  | enter k => cases h; exact ⟨hb.sound.enter k, hb.single, hb.slot⟩
  | signal k sig cause ok =>
    obtain ⟨-, rfl⟩ := step_signal.1 h
    exact hb.signal k sig cause ok
  | expire k sig ok =>
    obtain ⟨hk, rfl⟩ := step_expire.1 h
    exact hb.expire hk.2 sig ok
  | bury i c p ev =>
    obtain ⟨hk, rfl⟩ := step_bury.1 h
    exact hb.bury ev hk.1 hk.2.1 hown
  | lose i c => exact absurd h (hb.sound.not_lose hown)
  | dies pid status =>
    cases h
    refine hb.of_map b.os.trace ?_ ?_ ?_
    · intro c
      split_ifs <;> rfl
    · intro c
      split_ifs <;> rfl
    · intro c hc
      split_ifs
      · exact hc
      · exact hc
  | leaves pid =>
    cases h
    refine hb.of_map b.os.trace ?_ ?_ ?_
    · intro c
      split_ifs <;> rfl
    · intro c
      split_ifs <;> rfl
    · intro c hc
      split_ifs
      · exact hc
      · exact hc

/-- Only a fork can break that. -/
theorem obs (hb : Exclusive b) {e : Entry} (h : supervisor.step e b = .ok b') (hown : e.Own)
    (hfork : ∀ k hint t, e = .fork k hint t →
      ∀ c ∈ b.os.children, c.key = k → c.expired = false) : ∀ o ∈ e.obs b, o.Exclusive := by
  cases e with
  | fork k hint t =>
    simp only [Entry.obs, List.mem_singleton, forall_eq, Obs.Exclusive]
    intro c hc
    obtain ⟨hc, hkey⟩ := List.mem_filter.1 hc
    exact hfork k hint t rfl c hc (Prod.ext_iff.2 (by simpa [Child.key] using hkey))
  | bury i c p ev =>
    have hk := (step_bury.1 h).1
    have hkey := hb.sound.key_of_found hk.1 hown hk.2.1
    simp only [Entry.obs, List.mem_singleton, forall_eq, Obs.Exclusive]
    intro _
    rcases hb.slot c hk.1 with hs | hs
    · exact .inr (hkey ▸ hs)
    · exact .inl (hkey ▸ hs.1)
  | _ => simp [Entry.obs, Obs.Exclusive]

/-- All calls so far were exclusive, and the next one is. -/
theorem next (hb : Exclusive b) (ht : ∀ o ∈ b.os.trace, o.Exclusive) {e : Entry}
    (h : supervisor.step e b = .ok b') (hown : e.Own)
    (hfork : ∀ k hint t, e = .fork k hint t →
      ∀ c ∈ b.os.children, c.key = k → c.expired = false) :
    Exclusive b' ∧ ∀ o ∈ b'.os.trace, o.Exclusive := by
  have hobs := hb.obs h hown hfork
  exact ⟨hb.step h hown hobs, (forall_mem_trace h).2 ⟨ht, hobs⟩⟩

/-- The reaper may start a program again at once: it had no other process. -/
theorem restart (hb : Exclusive b) {i : ℕ} {c : Child} {p : ProgPtr} {ev : Option Event}
    (h : supervisor.step (.bury i c p ev) b = .ok b') (hi : c.thread = i) :
    ∀ d ∈ b'.os.children, d.key = (i, p) → d.expired = false := by
  intro d hd hdk
  obtain ⟨hk, rfl⟩ := step_bury.1 h
  have hkey : c.key = (i, p) := by
    have hfound := hb.sound.found hk.1 hi
    rw [hk.2.1, Option.some.injEq] at hfound
    exact Prod.ext hi hfound.symm
  obtain ⟨hd, hne⟩ := List.mem_filter.1 hd
  rw [hb.single d hd c hk.1 (hdk.trans hkey.symm)] at hne
  simp at hne

end Exclusive

/-! ## The process -/

theorem Thread.AtStart.unique {t : Thread} {p q : ProgPtr} (hp : t.AtStart p) (hq : t.AtStart q) :
    p = q := by
  obtain ⟨now, wui, wu, hpc, hwu, -, -, hprog⟩ := hp
  obtain ⟨now', wui', wu', hpc', hwu', -, -, hprog'⟩ := hq
  rw [hpc] at hpc'
  cases hpc'
  rw [hwu] at hwu'
  cases hwu'
  rw [hprog] at hprog'
  exact Option.some.inj hprog'

namespace Process

variable {σ₀ σ σ' : Process} {l : Label} {ls : List Label}

/-- Every call made so far was exclusive. -/
def MutuallyExclusive (σ : Process) : Prop := ∀ o ∈ σ.os.trace, o.Exclusive

/-- No start unit comes up for a program that has an expired process, unless `run` refuses it. -/
def NoEarlyStart (σ : Process) (l : Label) (_ : Process) : Prop :=
  ∀ i env p, l = .thread i env → i < σ.count → (σ.thread i).AtStart p →
    ((σ.thread i).s.prog p).pid = 0 → (env 0).startable ((σ.thread i).s.prog p) →
    ∀ c ∈ σ.os.children, c.key = (i, p) → c.expired = false

theorem exclusive_step (hσ : σ.Regular) (hb : Exclusive σ.books) (ht : σ.MutuallyExclusive)
    (h : machine.step l σ = .ok σ') (hown : σ.OwnDeaths l σ') (hstart : σ.NoEarlyStart l σ') :
    Exclusive σ'.books ∧ σ'.MutuallyExclusive := by
  obtain ⟨-, es, hes, hexec⟩ := step_entries hσ.self h
  have hown := hown.own hes
  have hnone : es = [] → Exclusive σ'.books ∧ σ'.MutuallyExclusive := by
    rintro rfl
    have he : σ.books = σ'.books := Except.ok.inj hexec
    exact ⟨he ▸ hb, (he ▸ ht : ∀ o ∈ σ'.books.os.trace, o.Exclusive)⟩
  have hquiet : ∀ {e}, es = [e] → (∀ k hint t, e ≠ .fork k hint t) →
      Exclusive σ'.books ∧ σ'.MutuallyExclusive := by
    rintro e rfl hne
    obtain ⟨b, hb', hnil⟩ := Transition.System.exec_cons_eq_ok.1 hexec
    cases hnil
    exact hb.next ht hb' (hown e (by simp)) fun k hint t he => absurd he (hne k hint t)
  cases hes with
  | @thread i env es hi hs =>
    cases hs with
    | quiet _ => exact hnone rfl
    | @start p hint now hat hpid hok =>
      obtain ⟨b₁, h₁, hexec⟩ := Transition.System.exec_cons_eq_ok.1 hexec
      obtain ⟨b₂, h₂, hnil⟩ := Transition.System.exec_cons_eq_ok.1 hexec
      cases hnil
      obtain ⟨hb₁, ht₁⟩ := hb.next ht h₁ (hown _ (by simp)) fun k _ _ he => by
        cases he
        exact hstart i env p rfl hi hat hpid hok
      exact hb₁.next ht₁ h₂ (hown _ (by simp)) (by simp)
    | refused _ _ => exact hquiet rfl (by simp)
    | signal _ => exact hquiet rfl (by simp)
    | expire _ => exact hquiet rfl (by simp)
    | death _ _ => exact hquiet rfl (by simp)
    | @restart c p ev hint now hreap hev =>
      obtain ⟨b₁, h₁, hexec⟩ := Transition.System.exec_cons_eq_ok.1 hexec
      obtain ⟨b₂, h₂, hnil⟩ := Transition.System.exec_cons_eq_ok.1 hexec
      cases hnil
      have hthread : c.thread = i := hown (.bury i c p ev) (by simp)
      obtain ⟨hb₁, ht₁⟩ := hb.next ht h₁ hthread (by simp)
      apply hb₁.next ht₁ h₂ (hown _ (by simp))
      intro k _ _ he
      cases he
      exact hb.restart h₁ hthread
    | stray _ => exact hquiet rfl (by simp)
  | dies => exact hquiet rfl (by simp)
  | leaves => exact hquiet rfl (by simp)
  | quiet => exact hnone rfl

/-- A start of a program that has an expired process is not exclusive. -/
theorem noEarlyStart_of_step (hσ : σ.Regular) (h : machine.step l σ = .ok σ')
    (ht : σ'.MutuallyExclusive) : σ.NoEarlyStart l σ' := by
  rintro i env p rfl hi hat hpid hok
  obtain ⟨-, es, hes, hexec⟩ := step_entries hσ.self h
  cases hes with
  | quiet hl => exact absurd (hl i env rfl) (by omega)
  | thread _ hs =>
    have hreap : ∀ {c}, (σ.thread i).reaps (env 0) σ.os ≠ some c := by simp [hat.reaps]
    cases hs with
    | quiet hcalm => exact absurd hat (hcalm.start p)
    | signal hcalm => exact absurd hat (hcalm.start p)
    | expire hcalm => exact absurd hat (hcalm.start p)
    | death h _ => exact absurd h hreap
    | restart h _ => exact absurd h hreap
    | stray h => exact absurd h hreap
    | refused hat' hno =>
      cases hat.unique hat'
      exact absurd ⟨hpid, hok⟩ hno
    | @start q hint now hat' _ _ =>
      cases hat.unique hat'
      obtain ⟨b₁, h₁, hexec⟩ := Transition.System.exec_cons_eq_ok.1 hexec
      obtain ⟨b₂, h₂, hnil⟩ := Transition.System.exec_cons_eq_ok.1 hexec
      cases hnil
      have hobs := ((forall_mem_trace h₁).1 ((forall_mem_trace h₂).1 ht).1).2
      simp only [Entry.obs, List.mem_singleton, forall_eq, Obs.Exclusive] at hobs
      intro c hc hkey
      exact hobs c (List.mem_filter.2 ⟨hc, by simpa [Child.key] using Prod.ext_iff.1 hkey⟩)

theorem Initial.exclusive (h : σ.Initial) : Exclusive σ.books := by
  have hc : σ.books.os.children = [] := h.children
  exact ⟨h.kept.sound, by simp [hc], by simp [hc]⟩

/-- In every run whose start units all wait for the expired processes to be reaped, no program is
forked beside one; with a single scheduler in no other run. -/
theorem mutual_exclusion_iff (h₀ : σ₀.Initial) (ls : List Label) :
    (machine.Along (fun σ l σ' => σ.OwnDeaths l σ' ∧ σ.NoEarlyStart l σ') ls σ₀ →
      machine.Always MutuallyExclusive ls σ₀) ∧
    (σ₀.count = 1 →
      (machine.Along NoEarlyStart ls σ₀ ↔ machine.Always MutuallyExclusive ls σ₀)) := by
  have ht₀ : σ₀.MutuallyExclusive := by
    simp [MutuallyExclusive, h₀.trace]
  constructor
  · intro hal
    have hstep : ∀ l τ τ', τ.Regular ∧ Exclusive τ.books ∧ τ.MutuallyExclusive →
        machine.step l τ = .ok τ' → τ.OwnDeaths l τ' ∧ τ.NoEarlyStart l τ' →
        τ'.Regular ∧ Exclusive τ'.books ∧ τ'.MutuallyExclusive := by
      rintro l τ τ' ⟨hτ, hb, ht⟩ hl ⟨hown, hstart⟩
      exact ⟨hτ.step hl, exclusive_step hτ hb ht hl hown hstart⟩
    exact (Transition.System.always_of_along hstep
      ⟨h₀.regular, h₀.exclusive, ht₀⟩ hal).mono fun τ hτ => hτ.2.2
  · intro h1
    have hiff : ∀ l τ τ', (τ.Regular ∧ τ.count = 1) ∧ Exclusive τ.books ∧ τ.MutuallyExclusive →
        machine.step l τ = .ok τ' → (τ.NoEarlyStart l τ' ↔ τ'.MutuallyExclusive) := by
      rintro l τ τ' ⟨⟨hτ, hc⟩, hb, ht⟩ hl
      exact ⟨fun hs => (exclusive_step hτ hb ht hl (hτ.ownDeaths hc l τ') hs).2,
        noEarlyStart_of_step hτ hl⟩
    have hstep : ∀ l τ τ', (τ.Regular ∧ τ.count = 1) ∧ Exclusive τ.books ∧ τ.MutuallyExclusive →
        machine.step l τ = .ok τ' → τ.NoEarlyStart l τ' →
        (τ'.Regular ∧ τ'.count = 1) ∧ Exclusive τ'.books ∧ τ'.MutuallyExclusive := by
      rintro l τ τ' ⟨⟨hτ, hc⟩, hb, ht⟩ hl hs
      exact ⟨⟨hτ.step hl, (hτ.frame_of_step hl).count.trans hc⟩,
        exclusive_step hτ hb ht hl (hτ.ownDeaths hc l τ') hs⟩
    rw [Transition.System.always_iff_along, Transition.System.along_iff_of_invariant hiff hstep
      ⟨⟨h₀.regular, h1⟩, h₀.exclusive, ht₀⟩]
    exact ⟨fun h => ⟨ht₀, h⟩, fun h => h.2⟩

/-! A program that outlives its `maxruntime` limit, and is started by hand. -/

/-- The sleeper with a limit of 10 seconds. -/
def limitedSleeper : SchedulerConfig where
  programs := [{ name := str "sleeper", seq := [str "/bin/sleep 100"],
                 limits := { maxruntime := 10 } }]
  init := [(.runProg, 0, 0)]

theorem limitedSleeper_initial : (Process.configured [limitedSleeper]).Initial :=
  configured_initial (List.forall_mem_singleton.2
    ⟨by simp [limitedSleeper], by simp [limitedSleeper]⟩)

/-- A step of the only scheduler at a time. -/
def tick (t : ℤ) : Label := .thread 0 fun _ => { utc := t, now := t }

/-- The process is started at 100 and signalled at 200, and it dies and is reaped before the start
unit of 201 is handled. -/
def startAfterReaping : List Label :=
  List.replicate 3 (tick 100) ++ List.replicate 7 (tick 200) ++ [.dies 1 15] ++
    List.replicate 4 (tick 201) ++ [.start 0 (str "sleeper") 201] ++ List.replicate 7 (tick 202)

/-- The unit that the first pass is at. -/
def nextUnit (t : Thread) : Option WorkUnit := match t.pc with
  | .firstPass _ wui => t.s.schedule.units[wui.pos]?
  | _ => none

/-- No process is expired, or the only scheduler is not at a unit. -/
def Unhurried (σ : Process) (_ : Label) (_ : Process) : Prop :=
  σ.count = 1 ∧ ((∀ c ∈ σ.os.children, c.expired = false) ∨ nextUnit (σ.thread 0) = none)

instance (σ : Process) (l : Label) (σ' : Process) : Decidable (σ.Unhurried l σ') :=
  inferInstanceAs (Decidable (_ ∧ _))

theorem Unhurried.noEarlyStart (h : σ.Unhurried l σ') : σ.NoEarlyStart l σ' := by
  obtain ⟨hcount, hcalm⟩ := h
  rintro i env p - hi ⟨now, wui, wu, hpc, hwu, -⟩ - - c hc -
  obtain rfl : i = 0 := by omega
  rcases hcalm with hcalm | hcalm
  · exact hcalm c hc
  · rw [nextUnit, hpc] at hcalm
    exact absurd (hwu.symm.trans hcalm) (Option.some_ne_none wu)

theorem mutual_exclusion_iff_sleeper :
    (∃ σ, machine.exec startAfterReaping (.configured [limitedSleeper]) = .ok σ ∧
      σ.os.trace.count (.fork 0 0 1 []) = 2) ∧
    machine.Always MutuallyExclusive startAfterReaping (.configured [limitedSleeper]) := by
  have hcalm : machine.Along Unhurried startAfterReaping (.configured [limitedSleeper]) := by
    decide
  refine ⟨⟨_, rfl, by decide⟩, ?_⟩
  apply ((mutual_exclusion_iff limitedSleeper_initial startAfterReaping).2 rfl).1
  exact hcalm.mono fun _ _ _ => Unhurried.noEarlyStart

/-- The process is started at 100, signalled at 200 and still there at 201. -/
def startTooEarly : List Label :=
  List.replicate 3 (tick 100) ++ List.replicate 5 (tick 200) ++
    [.start 0 (str "sleeper") 200, tick 201, tick 201]

theorem mutual_exclusion_fails : ¬∀ (σ₀ : Process) (ls : List Label), σ₀.Initial →
    σ₀.count = 1 → machine.Always MutuallyExclusive ls σ₀ := by
  intro h
  obtain ⟨σ, hσ, hforked⟩ : ∃ σ, machine.exec startTooEarly (.configured [limitedSleeper]) = .ok σ ∧
      Obs.fork 0 0 2 [{ pid := 1, thread := 0, owner := 0, signals := [⟨.limit, 15, true⟩] }]
        ∈ σ.os.trace := ⟨_, rfl, by decide⟩
  have hall := Transition.System.always_iff_prefixes.1
    (h _ startTooEarly limitedSleeper_initial rfl) _ List.prefix_rfl σ hσ
  exact absurd (hall _ hforked _ (List.mem_singleton.2 rfl)) (by decide)

end Process

end Peter
