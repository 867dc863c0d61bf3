import Peter.Runs

/-!
# Deaths that reach their owner

`waitpid(0, …)` returns any dead child of the process, also one that another scheduler forked.  A
scheduler that gets such a child does not find it in its map and gives up.  `deaths_delivered_iff`:
that no scheduler can be given the dead child of another one is exactly what keeps this from
happening, whichever child the system returns.
-/

namespace Peter

/-- `waitpid` gave the child to the scheduler that forked it, which found its program. -/
def Obs.Delivered : Obs → Prop
  | .waited i c found _ => c.thread = i ∧ found = some c.owner
  | _ => True

/-- All deaths so far were delivered, and every scheduler thread that has returned has left its
status at `STATUS_READY`. -/
structure Process.DeathsDelivered (σ : Process) : Prop where
  waited : ∀ o ∈ σ.os.trace, o.Delivered
  ready : ∀ i < σ.count, (σ.thread i).pc = .returned → (σ.thread i).s.status = .ready

theorem Sound.delivered {b b' : Books} {e : Entry} (hb : Sound b)
    (ht : ∀ o ∈ b.os.trace, o.Delivered) (h : supervisor.step e b = .ok b') (hown : e.Own) :
    ∀ o ∈ b'.os.trace, o.Delivered := by
  refine (forall_mem_trace h).2 ⟨ht, ?_⟩
  cases e with
  | bury i c p ev =>
    have hk := (step_bury.1 h).1
    have hkey := hb.key_of_found hk.1 hown hk.2.1
    simpa [Entry.obs, Obs.Delivered] using ⟨hown, (congrArg Prod.snd hkey).symm⟩
  | lose i c => exact absurd h (hb.not_lose hown)
  | _ => simp [Entry.obs, Obs.Delivered]

/-! ## The return of a thread -/

namespace Thread

variable {t t' : Thread} {os os' : OS} {env : ℕ → Env}

/-- A thread returns at the end of its shutdown, or when it gets a child it does not find. -/
theorem status_of_returned (h : t.step env os = .ok (t', os')) (hret : t'.pc = .returned) :
    t'.s.status = .ready ∨ (t.pc = .returned ∧ t'.s.status = t.s.status) ∨
      ∃ c, t.reaps (env 0) os = some c ∧ t.s.running c.pid = none := by
  obtain ⟨pc, w, hm, rfl, rfl⟩ := step_moves h
  obtain rfl : pc = .returned := hret
  cases hm with
  | jump hj =>
    cases hj with
    | returned hpc => exact .inr (.inl ⟨hpc, rfl⟩)
  | stray hreap hp => exact .inr (.inr ⟨_, hreap, hp⟩)
  | bury hwait => cases hwait
  | nobody hwait hreap hpc => rcases hpc with rfl | rfl <;> cases hwait
  | finish => exact .inl rfl

/-- A thread that gets a child it does not find returns. -/
theorem step_stray {c : Child} (hreap : t.reaps (env 0) os = some c)
    (hrun : t.s.running c.pid = none) :
    t.step env os = .ok ({ t with pc := .returned }, os.reap t.s.self c none 0) := by
  obtain ⟨pid, hpid, hc⟩ := Option.bind_eq_some_iff.1 hreap
  have hwait : World.wait ⟨t.s, os⟩ (env 0) pid =
      (.child c, none, { s := t.s, os := os.reap t.s.self c none 0 }) := by
    rcases World.wait_cases ⟨t.s, os⟩ (env 0) pid with
      ⟨d, p, hd, hp, -⟩ | ⟨d, hd, -, he⟩ | ⟨hd, -⟩
    · rw [hc] at hd
      cases hd
      exact absurd (hrun.symm.trans hp) (by simp)
    · rw [hc] at hd
      cases hd
      exact he
    · exact absurd (hc.symm.trans hd) (by simp)
  have hstepWait : ∀ a b d, t.stepWait (env 0) os pid a b d =
      .ok ({ t with pc := .returned }, os.reap t.s.self c none 0) := by
    intro a b d
    unfold stepWait
    rw [hwait]
    rfl
  unfold step
  unfold waitsFor at hpid
  cases hpc : t.pc <;> simp only [hpc] at hpid ⊢ <;> try cases hpid
  case poll =>
    unfold stepPoll
    rw [hwait]
    rfl
  case waitFor pri =>
    obtain ⟨p, hp, rfl⟩ := Option.map_eq_some_iff.1 hpid
    rw [hp]
    exact hstepWait _ _ _
  case reaping =>
    split_ifs at hpid ⊢
    cases hpid
    exact hstepWait _ _ _

end Thread

/-! ## The process -/

/-- The same step, with another choice of the system among dead children. -/
inductive Label.Repick : Label → Label → Prop
  | refl (l : Label) : Repick l l
  | thread (i : ℕ) (env : ℕ → Env) (pick : ℕ) :
      Repick (.thread i env) (.thread i (Function.update env 0 { env 0 with pick }))

theorem Label.Repick.trans {l l' l'' : Label} (h : l.Repick l') (h' : l'.Repick l'') :
    l.Repick l'' := by
  cases h with
  | refl => exact h'
  | thread i env pick =>
    cases h' with
    | refl => exact .thread i env pick
    | thread _ _ pick' => simpa using Label.Repick.thread i env pick'

theorem forall₂_repick {ls pre post : List Label} {l l' : Label} (hl : l.Repick l')
    (h : List.Forall₂ Label.Repick ls (pre ++ l :: post)) :
    List.Forall₂ Label.Repick ls (pre ++ l' :: post) := by
  induction pre generalizing ls with
  | nil =>
    cases h with
    | cons hx hrest => exact .cons (hx.trans hl) hrest
  | cons x pre ih =>
    cases h with
    | cons hx hrest => exact .cons hx (ih hrest)

namespace Process

variable {σ₀ σ σ' : Process} {l : Label}

theorem Kept.delivered (hσ : σ.Kept) (hd : σ.DeathsDelivered) (h : machine.step l σ = .ok σ')
    (hown : σ.OwnDeaths l σ') : σ'.DeathsDelivered := by
  obtain ⟨hf, es, hes, hexec⟩ := step_entries hσ.self h
  constructor
  case waited =>
    have hstep : ∀ e b b', e.Own → Sound b ∧ (∀ o ∈ b.os.trace, o.Delivered) →
        supervisor.step e b = .ok b' → Sound b' ∧ ∀ o ∈ b'.os.trace, o.Delivered :=
      fun e b b' he hb hstep => ⟨hb.1.step hstep he, hb.1.delivered hb.2 hstep he⟩
    exact (Transition.System.exec_invariant_of_forall hstep (hown.own hes)
      ⟨hσ.sound, hd.waited⟩ hexec).2
  case ready =>
    intro i hi hret
    rw [hf.count] at hi
    rcases thread_of_step h i with ⟨env, t, os, rfl, -, hstep, rfl, -⟩ | ⟨-, s, hs, he⟩
    · rcases Thread.status_of_returned hstep hret with hr | ⟨hpc, hr⟩ | ⟨c, hc, hrun⟩
      · exact hr
      · exact hr.trans (hd.ready i hi hpc)
      · -- a child of its own would have been found
        obtain ⟨pid, hpid, hz⟩ := reaps_mem hc
        have hfound := hσ.sound.found (OS.mem_zombies.1 hz).1 (hown i env rfl hi pid hpid c hz)
        exact absurd (hrun.symm.trans hfound) (by simp)
    · rw [he] at hret ⊢
      have hstatus : s.status = (σ.thread i).s.status := by cases hs <;> rfl
      exact hstatus.trans (hd.ready i hi hret)

/-- Where a scheduler may be given a foreign child, the system can choose it. -/
theorem Kept.exists_repick (hσ : σ.Kept) (h : machine.step l σ = .ok σ')
    (hown : ¬σ.OwnDeaths l σ') : ∃ l' τ, l.Repick l' ∧ machine.step l' σ = .ok τ ∧
      ¬τ.DeathsDelivered := by
  simp only [OwnDeaths, not_forall] at hown
  obtain ⟨i, env, rfl, hi, pid, hpid, c, hc, hthread⟩ := hown
  obtain ⟨pick, hpick⟩ := OS.exists_pick hc
  have hrun : (σ.thread i).s.running c.pid = none :=
    hσ.sound.not_found (OS.mem_zombies.1 hc).1 hthread
  set env' := Function.update env 0 { env 0 with pick } with henv
  have hreap : (σ.thread i).reaps (env' 0) σ.os = some c := by
    rw [Thread.reaps, hpid, henv]
    simpa using hpick
  have hstep := Thread.step_stray hreap hrun
  refine ⟨.thread i env', _, .thread i env pick, step_thread hi hstep, fun hd => ?_⟩
  have hlost := hd.waited (.waited (σ.thread i).s.self c none 0) (by simp [put, OS.reap])
  exact absurd hlost.2 (by simp)

/-- Deaths are delivered in every run in which no scheduler can be given the dead child of another
one; where one can, the system may break it off by its choice of the child. -/
theorem deaths_delivered_iff (h₀ : σ₀.Initial) (ls : List Label) :
    (∀ ls', List.Forall₂ Label.Repick ls ls' → machine.Along OwnDeaths ls' σ₀) ↔
      ∀ ls', List.Forall₂ Label.Repick ls ls' → machine.Always DeathsDelivered ls' σ₀ := by
  have hd₀ : σ₀.DeathsDelivered :=
    ⟨by simp [h₀.trace], fun i _ hret => absurd ((h₀.pc i).symm.trans hret) (by simp)⟩
  constructor
  · intro h ls' hls
    have hstep : ∀ l τ τ', τ.Kept ∧ τ.DeathsDelivered → machine.step l τ = .ok τ' →
        τ.OwnDeaths l τ' → τ'.Kept ∧ τ'.DeathsDelivered :=
      fun l τ τ' hτ hl hown => ⟨hτ.1.step hl hown, hτ.1.delivered hτ.2 hl hown⟩
    exact (Transition.System.always_of_along hstep ⟨h₀.kept, hd₀⟩ (h ls' hls)).mono
      fun τ hτ => hτ.2
  · intro h ls' hls
    by_contra hno
    obtain ⟨pre, l, post, τ, τ', rfl, hpre, hexec, hl, hown⟩ :=
      Transition.System.exists_step_of_not_along hno
    have hkept := Transition.System.always_of_along (fun l τ τ' hτ hl hown => hτ.step hl hown)
      h₀.kept hpre
    have hτ := Transition.System.always_iff_prefixes.1 hkept pre List.prefix_rfl τ hexec
    obtain ⟨l', τ'', hpick, hstep, hbad⟩ := Kept.exists_repick hτ hl hown
    refine hbad (Transition.System.always_iff_prefixes.1 (h _ (forall₂_repick hpick hls))
      (pre ++ [l']) ?_ τ'' ?_)
    · exact ⟨post, by simp⟩
    · exact Transition.System.exec_append_eq_ok.2
        ⟨τ, hexec, Transition.System.exec_singleton hstep⟩

/-- A program is started, dies and is reaped. -/
def lifeAndDeath : List Label :=
  List.replicate 2 (.thread 0 fun _ => {}) ++ [.dies 1 0] ++
    List.replicate 5 (.thread 0 fun _ => {})

/-- One scheduler gets no foreign child. -/
theorem deaths_delivered_iff_sleeper :
    machine.Always DeathsDelivered lifeAndDeath (.configured [.sleeper]) := by
  have hown : ∀ ls, machine.Along OwnDeaths ls (.configured [.sleeper]) := fun ls =>
    ownDeaths_along sleeper_initial rfl ls
  apply (deaths_delivered_iff sleeper_initial lifeAndDeath).1 (fun ls _ => hown ls) _
  exact List.forall₂_same.2 fun l _ => .refl l

/-! Two schedulers, the first of which has nothing to do. -/

def idle : SchedulerConfig where
  programs := [{ name := str "idle", seq := [str "/bin/true"] }]

/-- The second scheduler starts its program, it dies, and the first scheduler makes a pass. -/
def strayDeath : List Label :=
  List.replicate 2 (.thread 1 fun _ => {}) ++ [.dies 1 0] ++
    List.replicate 6 (.thread 0 fun _ => {})

theorem deaths_delivered_fails : ¬∀ (σ₀ : Process) (ls : List Label), σ₀.Initial →
    machine.Always DeathsDelivered ls σ₀ := by
  intro h
  have hinit : (Process.configured [idle, .sleeper]).Initial := by
    apply configured_initial
    intro c hc
    rcases List.mem_pair.1 hc with rfl | rfl
    · exact ⟨by simp [idle], by simp [idle]⟩
    · exact SchedulerConfig.sleeper_fresh
  obtain ⟨σ, hσ, hstatus, hpc, hcount⟩ : ∃ σ, machine.exec strayDeath
      (.configured [idle, .sleeper]) = .ok σ ∧ (σ.thread 0).s.status = .running ∧
        (σ.thread 0).pc = .returned ∧ σ.count = 2 := ⟨_, rfl, rfl, rfl, rfl⟩
  have hall := Transition.System.always_iff_prefixes.1 (h _ strayDeath hinit) _
    List.prefix_rfl σ hσ
  have hready := hall.ready 0 (by omega) hpc
  rw [hstatus] at hready
  cases hready

end Process

end Peter
