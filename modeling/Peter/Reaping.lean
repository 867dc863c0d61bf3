import Peter.Restart
import Peter.Sequences
import Peter.Several
import Peter.Termination

/-!
# No death goes unnoticed

A dead child of a program without `maxruntime` is reaped in the pass its scheduler is in, or in the
one after that: the reaper comes to its program with the pid of the child.  So its death is in the
event list after a bounded number of steps of the thread (`death_reported`), and a program with the
default actions that died of a signal or with result 0 has been started again by then
(`restarted`).  The bounds count the processes started and the units queued in the meantime.
-/

namespace Peter

/-! ## Dead children -/

/-- A child of the program, with that pid and wait status, is dead and not reaped yet. -/
def OS.Zombie (os : OS) (pid : ℤ) (k : Key) (status : ℕ) : Prop :=
  ∃ c ∈ os.children, c.pid = pid ∧ c.key = k ∧ c.status = some status

/-- The entry reaps no child with that pid. -/
def Entry.Spares (pid : ℤ) : Entry → Prop
  | .bury _ c _ _ => c.pid ≠ pid
  | .lose _ c => c.pid ≠ pid
  | _ => True

section Zombies

variable {os : OS} {b b' : Books} {pid : ℤ} {k : Key} {status : ℕ}

theorem OS.Zombie.map {os' : OS} {f : Child → Child} (hz : os.Zombie pid k status)
    (hos : os'.children = os.children.map f)
    (hf : ∀ c ∈ os.children, (f c).pid = c.pid ∧ (f c).key = c.key ∧
      (c.status = some status → (f c).status = some status)) : os'.Zombie pid k status := by
  obtain ⟨c, hc, hpid, hkey, hdead⟩ := hz
  obtain ⟨hp, hk, hd⟩ := hf c hc
  exact ⟨f c, hos ▸ List.mem_map_of_mem hc, hp.trans hpid, hk.trans hkey, hd hdead⟩

theorem OS.Zombie.kill (hz : os.Zombie pid k status) (i : ℕ) (p : ProgPtr) (pid' sig : ℤ)
    (cause : Cause) (ok : Bool) : (os.kill i p pid' sig cause ok).Zombie pid k status := by
  refine hz.map rfl fun c _ => ?_
  split_ifs
  · exact ⟨rfl, rfl, id⟩
  · exact ⟨rfl, rfl, id⟩

theorem OS.Zombie.reap (hz : os.Zombie pid k status) {c : Child} (hne : c.pid ≠ pid) (i : ℕ)
    (p : Option ProgPtr) (slot : ℤ) : (os.reap i c p slot).Zombie pid k status := by
  obtain ⟨d, hd, rfl, hrest⟩ := hz
  exact ⟨d, List.mem_filter.2 ⟨hd, by simpa using hne.symm⟩, rfl, hrest⟩

theorem OS.Zombie.step {e : Entry} (hz : b.os.Zombie pid k status)
    (h : supervisor.step e b = .ok b') (he : e.Spares pid) : b'.os.Zombie pid k status := by
  cases e with
  | fork k' hint t =>
    obtain ⟨-, rfl⟩ := step_fork.1 h
    obtain ⟨c, hc, hrest⟩ := hz
    exact ⟨c, List.mem_append_left _ hc, hrest⟩
  | enter k' => cases h; exact hz
  | signal k' sig cause ok =>
    obtain ⟨-, rfl⟩ := step_signal.1 h
    exact hz.kill ..
  | expire k' sig ok =>
    obtain ⟨-, rfl⟩ := step_expire.1 h
    exact hz.kill ..
  | bury i c p ev =>
    obtain ⟨-, rfl⟩ := step_bury.1 h
    exact hz.reap he ..
  | lose i c =>
    obtain ⟨-, rfl⟩ := step_lose.1 h
    exact hz.reap he ..
  | dies pid' status' =>
    cases h
    refine hz.map rfl fun c _ => ?_
    split_ifs with hdies
    · refine ⟨rfl, rfl, fun hdead => ?_⟩
      rw [hdies.2] at hdead
      cases hdead
    · exact ⟨rfl, rfl, id⟩
  | leaves pid' =>
    cases h
    refine hz.map rfl fun c _ => ?_
    split_ifs
    · exact ⟨rfl, rfl, id⟩
    · exact ⟨rfl, rfl, id⟩

/-- The pid of a program without `maxruntime` is that of its dead child. -/
theorem OS.Zombie.slot (hz : b.os.Zombie pid k status) (hb : Sound b)
    (hlim : b.limited k = false) : b.slot k = pid := by
  obtain ⟨c, hc, rfl, rfl, -⟩ := hz
  exact hb.sole _ (OS.mem_kids hc) hlim

theorem OS.Zombie.zombies_ne (hz : os.Zombie pid k status) : os.zombies pid ≠ [] := by
  obtain ⟨c, hc, hpid, -, hdead⟩ := hz
  exact List.ne_nil_of_mem (OS.mem_zombies.2 ⟨hc, .inl hpid, by simp [hdead]⟩)

/-- `waitpid` returns a dead child while there is one. -/
theorem OS.exists_waitpid (h : os.zombies pid ≠ []) (pick : ℕ) :
    ∃ c, (os.waitpid pid pick).1.child? = some c := by
  have hlt := Nat.mod_lt pick (List.length_pos_iff.2 h)
  unfold waitpid
  rw [List.getElem?_eq_getElem hlt]
  exact ⟨_, rfl⟩

end Zombies

/-! ## The way to the reaper -/

namespace Thread

variable {t t' : Thread} {os os' : OS} {env : ℕ → Env} {idx : ℕ} {pid : ℤ} {p : ProgPtr}

/-- The pass that the thread is in comes to `waitpid` for program number `idx`, with that pid. -/
def polls (idx : ℕ) (pid : ℤ) (t : Thread) : Bool := match t.pc with
  | .firstPass _ _ => true
  | .limits _ _ => true
  | .deaths _ pri => pri ≤ idx
  | .poll _ pri pid' => pri < idx ∨ (pri = idx ∧ pid' = pid)
  | _ => false

/-- The steps to the end of the pass that does, without the children reaped on the way. -/
def toReap (idx : ℕ) (pid : ℤ) (t : Thread) : ℕ :=
  t.toLoop + if t.polls idx pid then 0
    else t.s.schedule.units.length + (3 * t.s.programs.length + 4)

theorem toReap_le (idx : ℕ) (pid : ℤ) (hin : t.inLoop) : t.toReap idx pid ≤
    t.s.schedule.units.length + 5 * t.s.programs.length + 6 := by
  have hpass : t.toLoop ≤ t.s.schedule.units.length + (3 * t.s.programs.length + 3) := by
    unfold toLoop
    cases t.pc <;> dsimp only <;> omega
  unfold toReap
  by_cases hpolls : t.polls idx pid
  · rw [if_pos hpolls]
    omega
  · rw [if_neg hpolls]
    unfold toLoop
    cases hpc : t.pc <;> simp only [inLoop, polls, hpc, Bool.false_eq_true, not_true_eq_false]
      at hin hpolls <;> dsimp only <;> omega

theorem polls_of_jump {pc : Pc} (hj : t.Jump pc) (hp : t.s.programs[idx]? = some p)
    (hpid : (t.s.prog p).pid = pid) (hpolls : t.polls idx pid) :
    polls idx pid { t with pc } := by
  unfold polls at hpolls
  cases hj with
  | limited hpc => simp [polls]
  | @poll now pri q hpc hq =>
    simp only [hpc, decide_eq_true_eq] at hpolls
    simp only [polls, decide_eq_true_eq]
    rcases hpolls.lt_or_eq with hlt | rfl
    · exact .inl hlt
    · obtain rfl : q = p := Option.some.inj (hq.symm.trans hp)
      exact .inr ⟨rfl, hpid⟩
  | again hpc hq =>
    simp only [hpc, decide_eq_true_eq] at hpolls
    have hend := List.getElem?_eq_none_iff.1 hq
    obtain ⟨hlt, -⟩ := List.getElem?_eq_some_iff.1 hp
    omega
  | idle hpc => simp [hpc] at hpolls
  | wait hpc => simp [hpc] at hpolls
  | sigkill hpc => simp [hpc] at hpolls
  | waited hpc => simp [hpc] at hpolls
  | dead hpc => simp [hpc] at hpolls
  | killed hpc => simp [hpc] at hpolls
  | returned hpc => simp [hpc] at hpolls

/-- The reaper does not pass by a program whose child is dead. -/
theorem polls_of_step (h : t.step env os = .ok (t', os')) (hp : t.s.programs[idx]? = some p)
    (hpid : (t.s.prog p).pid = pid) (hz : os.zombies pid ≠ []) (hpolls : t.polls idx pid)
    (hin' : t'.inLoop) : t'.polls idx pid := by
  obtain ⟨pc, w, hm, rfl, rfl⟩ := step_moves h
  cases hm with
  | jump hj => exact polls_of_jump hj hp hpid hpolls
  | leave => simp [inLoop] at hin'
  | enter => rfl
  | unit => rfl
  | erase => rfl
  | limit => rfl
  | death hpc => simpa [polls, hpc] using hpolls
  | @alive now pid' pri hpc hreap =>
    simp only [polls, hpc, decide_eq_true_eq] at hpolls
    simp only [polls, decide_eq_true_eq]
    rcases hpolls with hlt | ⟨-, rfl⟩
    · omega
    · obtain ⟨c, hc⟩ := OS.exists_waitpid hz (env 0).pick
      simp [reaps, waitsFor, hpc, hc] at hreap
  | stray => simp [inLoop] at hin'
  | bury hwait => cases hwait <;> simp [inLoop] at hin'
  | nobody hwait _ hpc => cases hwait <;> rcases hpc with rfl | rfl <;> simp [inLoop] at hin'
  | stop => simp [inLoop] at hin'
  | stopped => simp [inLoop] at hin'
  | kill => simp [inLoop] at hin'
  | finish => simp [inLoop] at hin'

/-- A pass counts down, but for the children it reaps and the units queued in it. -/
theorem toLoop_of_step (h : t.step env os = .ok (t', os')) (hin' : t'.inLoop)
    (hpc : t.pc ≠ .loop) (hprog : t'.s.programs = t.s.programs) :
    1 + t'.toLoop + t.s.schedule.added.length ≤ t.toLoop + t'.s.schedule.added.length +
      if (t.reaps (env 0) os).isSome then 1 else 0 := by
  have hin := inLoop_of_step h hin'
  have hadded := added_of_step h
  obtain ⟨pc, w, hm, rfl, rfl⟩ := step_moves h
  dsimp only at hadded hprog ⊢
  cases hm with
  | jump hj =>
    have hgo := hj.toLoop hin
    dsimp only at hgo ⊢
    omega
  | leave => simp [inLoop] at hin'
  | enter hpc' => exact absurd hpc' hpc
  | unit hpc' hwu hw =>
    obtain ⟨hlt, -⟩ := List.getElem?_eq_some_iff.1 hwu
    obtain ⟨-, n, hunits, hadd⟩ := units_of_handleUnit hw
    simp only [toLoop, hpc', hunits, hadd, hprog]
    omega
  | erase hpc' hwu =>
    simp only [toLoop, hpc']
    omega
  | limit hpc' hp =>
    obtain ⟨hlt, -⟩ := List.getElem?_eq_some_iff.1 hp
    simp only [toLoop, hpc', hprog]
    omega
  | death hpc' hreap =>
    simp only [toLoop, hpc', hprog, hreap, Option.isSome_some, if_true]
    omega
  | alive hpc' =>
    simp only [toLoop, hpc']
    omega
  | stray => simp [inLoop] at hin'
  | bury hwait => cases hwait <;> simp [inLoop] at hin'
  | nobody hwait _ hpc => cases hwait <;> rcases hpc with rfl | rfl <;> simp [inLoop] at hin'
  | stop => simp [inLoop] at hin'
  | stopped => simp [inLoop] at hin'
  | kill => simp [inLoop] at hin'
  | finish => simp [inLoop] at hin'

/-- The schedule grows by what is recorded as added. -/
theorem units_of_step (h : t.step env os = .ok (t', os')) :
    t'.s.schedule.units.length + t.s.schedule.added.length ≤
      t.s.schedule.units.length + t'.s.schedule.added.length := by
  cases step_turn h with
  | enter _ _ _ hs => rw [hs]
  | skip _ _ _ _ _ hs => rw [hs]
  | mark _ _ _ _ hs =>
    rw [hs.2.2]
    simp [Schedule.markUsed]
  | queue _ _ _ _ hs =>
    rw [hs.2.2]
    simp only [Schedule.markUsed, Schedule.pushBack, List.length_append, List.length_set,
      List.length_singleton]
    omega
  | erase _ _ _ _ hs =>
    rw [hs, Schedule.eraseUsed_eq_filter]
    exact Nat.add_le_add_right (List.length_filter_le ..) _
  | grow _ _ _ hs => exact hs.length_added.le

theorem toReap_of_enter (idx : ℕ) (pid : ℤ) (h : t.step env os = .ok (t', os')) (hin' : t'.inLoop)
    (hpc : t.pc = .loop) : 1 + t'.toReap idx pid = t.toReap idx pid ∧
      t'.s.schedule.added = t.s.schedule.added := by
  unfold step at h
  rw [hpc] at h
  dsimp only at h
  split_ifs at h
  · cases h
    simp [inLoop] at hin'
  · cases h
    refine ⟨?_, rfl⟩
    simp only [toReap, toLoop, polls, hpc, if_true, Bool.false_eq_true, if_false]
    omega

/-- What a step costs a thread on its way to the dead child of a program. -/
theorem toReap_of_step (h : t.step env os = .ok (t', os')) (hp : t.s.programs[idx]? = some p)
    (hpid : (t.s.prog p).pid = pid) (hz : os.zombies pid ≠ []) (hin' : t'.inLoop)
    (hprog : t'.s.programs = t.s.programs) :
    1 + t'.toReap idx pid + 2 * t.s.schedule.added.length ≤
      t.toReap idx pid + 2 * t'.s.schedule.added.length +
        if (t.reaps (env 0) os).isSome then 1 else 0 := by
  by_cases hpc : t.pc = .loop
  · obtain ⟨hcost, hadded⟩ := toReap_of_enter idx pid h hin' hpc
    rw [hadded, hcost]
    exact Nat.le_add_right _ _
  · have hpass := toLoop_of_step h hin' hpc hprog
    have hunits := units_of_step h
    have hadded := added_of_step h
    unfold toReap
    by_cases hpolls' : t'.polls idx pid
    · rw [if_pos hpolls']
      omega
    · have hpolls : ¬t.polls idx pid := fun hpolls =>
        hpolls' (polls_of_step h hp hpid hz hpolls hin')
      rw [if_neg hpolls', if_neg hpolls, hprog]
      omega

/-- A command costs the way what the unit it queues pays. -/
theorem toReap_of_command {queues : Prop} {s : Scheduler} (h : t.s.Command queues s) :
    toReap idx pid { t with s } + 2 * t.s.schedule.added.length ≤
      t.toReap idx pid + 2 * s.schedule.added.length := by
  cases h with
  | none => exact le_rfl
  | off => exact le_rfl
  | @unit ty tAt q _ _ =>
    obtain ⟨sch, hsch⟩ : ∃ sch, sch = t.s.schedule.pushBack ⟨t.s.schedule.nextAddr, ty, tAt, q⟩ :=
      ⟨_, rfl⟩
    have hlen : sch.units.length = t.s.schedule.units.length + 1 ∧
        sch.added.length = t.s.schedule.added.length + 1 := by
      rw [hsch]
      simp [Schedule.pushBack]
    have hpass : toLoop { t with s := { t.s with schedule := sch } } ≤ t.toLoop + 1 := by
      unfold toLoop
      cases t.pc <;> dsimp only <;> omega
    have hsame : polls idx pid { t with s := { t.s with schedule := sch } } = t.polls idx pid := rfl
    rw [← hsch, toReap, toReap, hsame]
    dsimp only at hpass ⊢
    split_ifs <;> omega

end Thread

/-! ## Deaths are reported -/

/-- Only a scheduler that is given the child reaps it. -/
theorem Label.Entries.spares_or {σ : Process} {l : Label} {es : List Entry}
    (h : l.Entries σ es) (pid : ℤ) : (∀ e ∈ es, e.Spares pid) ∨ ∃ j env c, l = .thread j env ∧
      j < σ.count ∧ (σ.thread j).reaps (env 0) σ.os = some c ∧ c.pid = pid := by
  cases h with
  | @thread j env es hj hs =>
    have hgiven : ∀ {c : Child}, (σ.thread j).reaps (env 0) σ.os = some c →
        (c.pid ≠ pid → ∀ e ∈ es, e.Spares pid) → (∀ e ∈ es, e.Spares pid) ∨
          ∃ j' env' c, Label.thread j env = .thread j' env' ∧ j' < σ.count ∧
            (σ.thread j').reaps (env' 0) σ.os = some c ∧ c.pid = pid := by
      intro c hreap hne
      by_cases hpid : c.pid = pid
      · exact .inr ⟨j, env, c, rfl, hj, hreap, hpid⟩
      · exact .inl (hne hpid)
    cases hs with
    | death hreap => exact hgiven hreap fun hne => by simpa [Entry.Spares] using hne
    | restart hreap => exact hgiven hreap fun hne => by simpa [Entry.Spares] using hne
    | stray hreap => exact hgiven hreap fun hne => by simpa [Entry.Spares] using hne
    | _ => exact .inl (by simp [Entry.Spares])
  | dies => exact .inl (by simp [Entry.Spares])
  | leaves => exact .inl (by simp [Entry.Spares])
  | quiet => exact .inl (by simp)

namespace Process

open Transition.System

variable {σ₀ σ σ' : Process} {l : Label} {pre ls : List Label} {i idx : ℕ} {p : ProgPtr}
  {pid : ℤ} {status : ℕ}

/-- A dead child stays until its own scheduler is given it. -/
theorem Kept.zombie_of_step (hσ : σ.Kept) (h : machine.step l σ = .ok σ')
    (hown : σ.OwnReaps l σ') (hz : σ.os.Zombie pid (i, p) status) :
    σ'.os.Zombie pid (i, p) status ∨ ∃ env c, l = .thread i env ∧
      (σ.thread i).reaps (env 0) σ.os = some c ∧ c.pid = pid ∧ c.key = (i, p) ∧
        c.status = some status := by
  obtain ⟨-, es, hes, hexec⟩ := step_entries hσ.self h
  rcases hes.spares_or pid with hspares | ⟨j, env, c, rfl, hj, hreap, hpid⟩
  · left
    exact exec_invariant_of_forall (I := fun b : Books => b.os.Zombie pid (i, p) status)
      (fun _ _ _ he hb hl => hb.step hl he) hspares hz hexec
  · right
    obtain ⟨d, hd, hdpid, hdkey, hdead⟩ := hz
    obtain rfl : c = d :=
      hσ.sound.child_eq (Thread.mem_children_of_reaps hreap) hd (hpid.trans hdpid.symm)
    obtain rfl : i = j := (congrArg Prod.fst hdkey).symm.trans (hown j env c rfl hj hreap)
    exact ⟨env, c, rfl, hreap, hpid, hdkey, hdead⟩

/-- The scheduler finds the program of the child it is given, and the reaper handles its death. -/
theorem Kept.handleDeath_of_reaps {env : ℕ → Env} {c : Child} (hσ : σ.Kept)
    (h : machine.step (.thread i env) σ = .ok σ') (hi : i < σ.count)
    (hreap : (σ.thread i).reaps (env 0) σ.os = some c) (hkey : c.key = (i, p))
    (hin' : (σ'.thread i).inLoop) : ∃ now,
      World.handleDeath (fun k => env (k + 1)) now c p ⟨(σ.thread i).s,
        σ.os.reap (σ.thread i).s.self c (some p) ((σ.thread i).s.prog p).pid⟩ =
      .ok ⟨(σ'.thread i).s, σ'.os⟩ := by
  have hfound : (σ.thread i).s.running c.pid = some c.owner :=
    hσ.sound.found (Thread.mem_children_of_reaps hreap) (congrArg Prod.fst hkey)
  rw [show c.owner = p from congrArg Prod.snd hkey] at hfound
  rcases thread_of_step h i with ⟨env', t, os, he, -, hstep, rfl, rfl⟩ | ⟨hno, -⟩
  · cases he
    rcases Thread.death_or_bury hreap hfound hstep with ⟨now, _, _, -, hw⟩ | ⟨hloop, -⟩
    · exact ⟨now, hw⟩
    · have hin := Thread.inLoop_of_step hstep hin'
      exact absurd (hloop.symm.trans hin) Bool.false_ne_true
  · exact absurd (hno env rfl) (by omega)

/-- The death of program `p` with that wait status is logged behind `log`. -/
def Reported (log : List Event) (i : ℕ) (p : ProgPtr) (status : ℕ) (σ : Process) : Prop :=
  ∃ evs now, σ.books.log i = log ++ evs ∧ ⟨now, deathType status, p, status⟩ ∈ evs

/-- No event is taken from the list. -/
theorem log_of_entry {e : Entry} {b b' : Books} (h : supervisor.step e b = .ok b') (i : ℕ) :
    ∃ evs, b'.log i = b.log i ++ evs := by
  have hupdate : ∀ (j : ℕ) (evs : List Event),
      ∃ evs', Function.update b.log j (b.log j ++ evs) i = b.log i ++ evs' := by
    intro j evs
    rw [update_log]
    exact ⟨_, rfl⟩
  have hsame : ∃ evs, b.log i = b.log i ++ evs := ⟨[], by simp⟩
  cases e with
  | fork k hint t =>
    obtain ⟨-, rfl⟩ := step_fork.1 h
    exact hupdate k.1 _
  | enter k => cases h; exact hsame
  | signal k sig cause ok =>
    obtain ⟨-, rfl⟩ := step_signal.1 h
    exact hsame
  | expire k sig ok =>
    obtain ⟨-, rfl⟩ := step_expire.1 h
    exact hsame
  | bury j c p ev =>
    obtain ⟨-, rfl⟩ := step_bury.1 h
    exact hupdate j _
  | lose j c =>
    obtain ⟨-, rfl⟩ := step_lose.1 h
    exact hsame
  | dies pid status => cases h; exact hsame
  | leaves pid => cases h; exact hsame

theorem Regular.log_of_step (hσ : σ.Regular) (h : machine.step l σ = .ok σ') (i : ℕ) :
    ∃ evs, σ'.books.log i = σ.books.log i ++ evs := by
  obtain ⟨-, es, -, hexec⟩ := step_entries hσ.self h
  refine exec_invariant (I := fun b : Books => ∃ evs, b.log i = σ.books.log i ++ evs)
    (fun e b b' hb hl => ?_) ⟨[], by simp⟩ hexec
  obtain ⟨evs, hevs⟩ := hb
  obtain ⟨evs', hevs'⟩ := log_of_entry hl i
  exact ⟨evs ++ evs', by rw [hevs', hevs, List.append_assoc]⟩

theorem Regular.reported_of_step {log : List Event} (hσ : σ.Regular)
    (h : machine.step l σ = .ok σ') (hr : Reported log i p status σ) :
    Reported log i p status σ' := by
  obtain ⟨evs, now, hevs, hmem⟩ := hr
  obtain ⟨evs', hevs'⟩ := hσ.log_of_step h i
  exact ⟨evs ++ evs', now, by rw [hevs', hevs, List.append_assoc],
    List.mem_append_left _ hmem⟩

/-- A child that the scheduler is given in its main loop is reported. -/
theorem Kept.reported_of_reaps {env : ℕ → Env} {c : Child} (hσ : σ.Kept)
    (h : machine.step (.thread i env) σ = .ok σ') (hi : i < σ.count)
    (hreap : (σ.thread i).reaps (env 0) σ.os = some c) (hkey : c.key = (i, p))
    (hdead : c.status = some status) (hin' : (σ'.thread i).inLoop) :
    Reported (σ.books.log i) i p status σ' := by
  obtain ⟨now, hw⟩ := hσ.handleDeath_of_reaps h hi hreap hkey hin'
  have hfound : (σ.thread i).s.running c.pid = some c.owner :=
    hσ.sound.found (Thread.mem_children_of_reaps hreap) (congrArg Prod.fst hkey)
  rw [show c.owner = p from congrArg Prod.snd hkey] at hfound
  have hself := hσ.self i hi
  rw [hself] at hw
  obtain ⟨-, ev, hev, hb⟩ := World.handleDeath_entries σ'.schedulers (w := ⟨(σ.thread i).s, σ.os⟩)
    hself (Thread.mem_children_of_reaps hreap) hfound hw
  obtain rfl := hev (hσ.stopMode i hi p)
  have hlog₀ : (World.books σ'.schedulers i ⟨(σ.thread i).s, σ.os⟩).log i = σ.books.log i :=
    World.log_books ..
  have hlog₁ : (World.books σ'.schedulers i ⟨(σ'.thread i).s, σ'.os⟩).log i = σ'.books.log i :=
    World.log_books ..
  rw [hdead, Option.getD_some] at hb
  rcases hb with hb | ⟨hint, now', hb⟩
  · obtain ⟨b, hbury, hb⟩ := exec_cons_eq_ok.1 hb
    cases hb
    obtain ⟨-, hb⟩ := step_bury.1 hbury
    refine ⟨[⟨now, deathType status, p, status⟩], now, ?_, List.mem_singleton_self _⟩
    rw [← hlog₁, ← hb, ← hlog₀]
    exact Function.update_self ..
  · obtain ⟨b, hbury, hb⟩ := exec_cons_eq_ok.1 hb
    obtain ⟨b', hfork, hb⟩ := exec_cons_eq_ok.1 hb
    cases hb
    obtain ⟨-, hb⟩ := step_bury.1 hbury
    obtain ⟨evs, hevs⟩ := log_of_entry hfork i
    refine ⟨[⟨now, deathType status, p, status⟩] ++ evs, now, ?_,
      List.mem_append_left _ (List.mem_singleton_self _)⟩
    rw [← hlog₁, hevs, ← hb, ← hlog₀, ← List.append_assoc]
    exact congrArg (· ++ evs) (Function.update_self ..)

/-- What a step costs while a dead child of the scheduler waits. -/
theorem Kept.toReap_of_step (hσ : σ.Kept) (h : machine.step l σ = .ok σ') (hi : i < σ.count)
    (hp : (σ.thread i).s.programs[idx]? = some p)
    (hlim : ((σ.thread i).s.prog p).limits.maxruntime = -1)
    (hz : σ.os.Zombie pid (i, p) status) (hin' : (σ'.thread i).inLoop) :
    (if l.own i then 1 else 0) + ((σ'.thread i).toReap idx pid + σ'.os.children.length) +
        (σ.os.forks + 2 * (σ.thread i).s.schedule.added.length) ≤
      (σ.thread i).toReap idx pid + σ.os.children.length +
        (σ'.os.forks + 2 * (σ'.thread i).s.schedule.added.length) := by
  have hslot : ((σ.thread i).s.prog p).pid = pid :=
    hz.slot (b := σ.books) hσ.sound (decide_eq_false (not_not.2 hlim))
  exact hσ.pays_of_step h hi
    (fun env _ hl hstep hprog => Thread.toReap_of_step hstep hp hslot hz.zombies_ne hin' hprog)
    fun _ hs => Thread.toReap_of_command hs

/-- A death of an unlimited program is in the event list of its scheduler within so many steps of
the thread, unless the scheduler leaves its main loop, whatever the other threads, the other
children and the commands do. -/
theorem death_reported {c : Child} (h₀ : σ₀.Initial) (hpre : machine.exec pre σ₀ = .ok σ)
    (hown₀ : machine.Along OwnReaps pre σ₀) (hi : i < σ₀.count)
    (hp : p ∈ (σ.thread i).s.programs)
    (hlim : ((σ.thread i).s.prog p).limits.maxruntime = -1) (hc : c ∈ σ.os.children)
    (hkey : c.key = (i, p)) (hdead : c.status = some status)
    (hown : machine.Along OwnReaps ls σ) (h : machine.exec ls σ = .ok σ')
    (hturns : (σ.thread i).s.schedule.units.length + 5 * (σ.thread i).s.programs.length + 6 +
      σ.os.children.length + (σ'.os.forks - σ.os.forks) +
      2 * ((σ'.thread i).s.schedule.added.length - (σ.thread i).s.schedule.added.length) <
        turns i ls) :
    Reported (σ.books.log i) i p status σ' ∨ (σ'.thread i).inLoop = false := by
  obtain ⟨idx, hidx⟩ := List.mem_iff_getElem?.1 hp
  have hkept := h₀.kept_of_along hown₀ hpre
  have hcount := h₀.count_of_run hpre
  by_cases hin : (σ.thread i).inLoop
  case neg =>
    right
    rw [Bool.not_eq_true] at hin
    exact exec_invariant (fun _ _ _ hloop hl => not_inLoop_of_step hl hloop) hin h
  have hle := Thread.toReap_le idx c.pid hin
  set log := σ.books.log i with hlog
  refine exec_done_along (P := OwnReaps)
    (fun σ => (σ.thread i).toReap idx c.pid + σ.os.children.length)
    (fun σ => σ.os.forks + 2 * (σ.thread i).s.schedule.added.length) (Label.own i)
    (I := fun τ => τ.Kept ∧ σ.Frame τ ∧ (∃ evs, τ.books.log i = log ++ evs) ∧
      (Reported log i p status τ ∨ (τ.thread i).inLoop = false ∨
        τ.os.Zombie c.pid (i, p) status))
    (D := fun τ => Reported log i p status τ ∨ (τ.thread i).inLoop = false)
    (fun l τ τ' hτ hl ho => ?_)
    (fun l τ τ' hτ hl _ hd => hd.imp (hτ.1.reported_of_step hl) (not_inLoop_of_step hl))
    (fun l τ τ' hτ hl _ hnot hnot' => ?_)
    ⟨hkept, .refl σ, ⟨[], by simp [hlog]⟩, .inr (.inr ⟨c, hc, rfl, hkey, hdead⟩)⟩ hown h ?_
  · obtain ⟨hk, hf, ⟨evs, hevs⟩, hstate⟩ := hτ
    obtain ⟨evs', hevs'⟩ := hk.log_of_step hl i
    refine ⟨hk.step_own hl ho, hf.trans (hk.frame_of_step hl),
      ⟨evs ++ evs', by rw [hevs', hevs, List.append_assoc]⟩, ?_⟩
    rcases hstate with hr | hloop | hz
    · exact .inl (hk.reported_of_step hl hr)
    · exact .inr (.inl (not_inLoop_of_step hl hloop))
    rcases hk.zombie_of_step hl ho hz with hz' | ⟨env, d, rfl, hreap, -, hdkey, hddead⟩
    · exact .inr (.inr hz')
    by_cases hin' : (τ'.thread i).inLoop
    · left
      have hiτ : i < τ.count := hf.count.symm ▸ hcount.symm ▸ hi
      obtain ⟨evs'', now, hlog', hmem⟩ := hk.reported_of_reaps hl hiτ hreap hdkey hddead hin'
      exact ⟨evs ++ evs'', now, by rw [hlog', hevs, List.append_assoc],
        List.mem_append_right _ hmem⟩
    · exact .inr (.inl (by simpa using hin'))
  · obtain ⟨hk, hf, -, hstate⟩ := hτ
    obtain ⟨hr, hloop⟩ := not_or.1 hnot
    obtain ⟨-, hloop'⟩ := not_or.1 hnot'
    have hz := (hstate.resolve_left hr).resolve_left hloop
    have hiτ : i < τ.count := hf.count.symm ▸ hcount.symm ▸ hi
    refine hk.toReap_of_step hl hiτ ((hf.scheduler i).programs.symm ▸ hidx) ?_ hz
      (eq_true_of_ne_false hloop')
    exact (congrArg Limits.maxruntime ((hf.scheduler i).prog p).limits).trans hlim
  · rw [turns] at hturns
    omega

/-- The program is started and dies, and its scheduler runs on. -/
def diedSleeper : List Label := List.replicate 2 (.thread 0 fun _ => {}) ++ [.dies 1 9]

theorem death_reported_sleeper : ∃ σ σ', machine.exec diedSleeper (.configured [.sleeper]) = .ok σ ∧
    machine.exec (List.replicate 40 (.thread 0 fun _ => {})) σ = .ok σ' ∧
    (Reported (σ.books.log 0) 0 0 9 σ' ∨ (σ'.thread 0).inLoop = false) := by
  obtain ⟨σ, σ', hpre, h, hc, hp, hturns⟩ : ∃ σ σ',
      machine.exec diedSleeper (.configured [.sleeper]) = .ok σ ∧
      machine.exec (List.replicate 40 (.thread 0 fun _ => {})) σ = .ok σ' ∧
      σ.os.children = [{ pid := 1, thread := 0, owner := 0, status := some 9 }] ∧
      (σ.thread 0).s.programs = [0] ∧
      (σ.thread 0).s.schedule.units.length + 5 * (σ.thread 0).s.programs.length + 6 +
        σ.os.children.length + (σ'.os.forks - σ.os.forks) +
        2 * ((σ'.thread 0).s.schedule.added.length - (σ.thread 0).s.schedule.added.length) <
          turns 0 (List.replicate 40 (.thread 0 fun _ => {})) :=
    ⟨_, _, rfl, rfl, rfl, rfl, by decide⟩
  have hreg := regular_run sleeper_initial hpre
  have hown := hreg.ownReaps_along (sleeper_initial.count_of_run hpre)
  have hlim : ((σ.thread 0).s.prog 0).limits.maxruntime = -1 := by
    cases hpre
    rfl
  refine ⟨σ, σ', hpre, h, death_reported (p := 0) sleeper_initial hpre
    (sleeper_initial.regular.ownReaps_along rfl _) (by decide) ?_ hlim (hc ▸ List.mem_singleton_self _)
    rfl rfl (hown _) h hturns⟩
  rw [hp]
  exact List.mem_singleton_self _

end Process

/-! ## Deaths are answered -/

namespace World

variable {w w' : World} {p : ProgPtr} {env : ℕ → Env} {e : Env} {res sig : ℤ}

/-- The default action starts the program. -/
theorem Ended.starts_of_whatNext {x : XMLNode} (hactions : x.getNamedChild (str "actions") = none)
    (hlimit : x.getNamedChild (str "limit") = none) (h : w.Ended x env p)
    (hcode : sig > 0 ∨ res = 0) (hself : (w.s.getProgramByName []).getD p = p)
    (hw : w.whatNext env res sig p = .ok w') : (w'.prog p).starts = (w.prog p).starts + 1 := by
  obtain ⟨w₁, hq₁, hprog₁, hnext⟩ := h.whatNext_eq hactions hlimit res sig
  obtain ⟨w₂, hq₂, hidx, haction⟩ := doAction_default (env 1) p res sig w₁
  rw [hnext, if_pos hcode, haction, hq₁.frame.getProgramByName, if_pos hself] at hw
  have hpid : (w₂.prog p).pid = 0 := ((hq₂.pid p).trans (hq₁.pid p)).trans h.pid
  have hok : (env 1).startable (w₂.prog p) := by
    have hsame := (hq₂.frame.prog p).startable hidx (env 1)
    rw [show w₁.s.prog p = { w.prog p with seqIdx := 0 } from hprog₁] at hsame
    exact hsame.trans h.startable
  rcases run_cases hw with ⟨-, hno⟩ | ⟨-, -, hint, w₃, -, hq₃, rfl⟩
  · exact absurd ⟨hpid, hok⟩ hno
  · have hforked : ((w₃.forked (env 1) p hint).prog p).starts = (w₃.prog p).starts + 1 := by
      simp [forked, addEvent, setRunning, prog, modifyProg]
    rw [hforked, hq₃.starts, hq₂.starts, hq₁.starts]

section Lives

variable {Q : Life → Prop}

theorem Still.holds (h : w.Still w') (q : ProgPtr) (hQ : Q (w.prog q).life) :
    Q (w'.prog q).life := by
  rwa [h.life]

theorem Turns.holds {f : Life → Life} {os' : OS} {n : ℕ} (h : Turns p f os' n w w')
    (hf : ∀ l, Q l → Q (f l)) (q : ProgPtr) (hQ : Q (w.prog q).life) : Q (w'.prog q).life := by
  by_cases hq : q = p
  · subst hq
    rw [h.self]
    exact hf _ hQ
  · rwa [h.other q hq]

theorem Starts.holds (h : w.Starts p e w') (hstart : ∀ pid utc l, Q l → Q (l.started pid utc))
    (q : ProgPtr) (hQ : Q (w.prog q).life) : Q (w'.prog q).life := by
  obtain ⟨hint, ht⟩ := h.turns
  exact ht.holds (fun l => hstart _ _ l) q hQ

theorem Again.holds (h : Again env p w w') (hstart : ∀ pid utc l, Q l → Q (l.started pid utc))
    (q : ProgPtr) (hQ : Q (w.prog q).life) : Q (w'.prog q).life := by
  rcases h with hs | ⟨k, hs⟩
  · exact hs.holds q hQ
  · exact hs.holds hstart q hQ

end Lives

end World

namespace Process

open Transition.System

variable {σ₀ σ σ' : Process} {l : Label} {pre ls : List Label} {i : ℕ} {p : ProgPtr}
  {pid : ℤ} {status : ℕ}

/-- What starts and ends of processes keep of a life, a step keeps. -/
theorem Regular.life_of_step {Q : Life → Prop} (hdropped : ∀ l, Q l → Q l.dropped)
    (hended : ∀ now l, Q l → Q (l.ended now)) (hadvanced : ∀ n l, Q l → Q (l.advanced n))
    (hstarted : ∀ pid utc l, Q l → Q (l.started pid utc)) (hσ : σ.Regular)
    (h : machine.step l σ = .ok σ') (hi : i < σ.count) (hQ : Q ((σ.thread i).s.prog p).life) :
    Q ((σ'.thread i).s.prog p).life := by
  rcases hσ.deed h hi with ⟨env, -, -, hdeed⟩ | ⟨-, hs⟩
  · cases hdeed with
    | idle _ hs => exact hs.holds p hQ
    | signal _ hs => exact hs.holds p hQ
    | expire _ _ _ ht => exact ht.holds hdropped p hQ
    | start _ hs => exact hs.holds hstarted p hQ
    | @death _ _ _ _ _ w₁ w₂ _ _ _ _ hbury hagain hw =>
      have hprog : (σ'.thread i).s.prog p = w₂.prog p := congrArg (fun w => w.s.prog p) hw
      rw [hprog]
      exact hagain.holds hstarted p
        (hbury.holds (fun l hl => hadvanced _ _ (hended _ l hl)) p hQ)
    | bury _ _ _ ht => exact ht.holds (hended _) p hQ
    | stray _ _ hs => exact hs.holds p hQ
  · exact hs.holds p hQ

/-- No start is taken back. -/
theorem Regular.starts_of_step (hσ : σ.Regular) (h : machine.step l σ = .ok σ')
    (hi : i < σ.count) (p : ProgPtr) :
    ((σ.thread i).s.prog p).starts ≤ ((σ'.thread i).s.prog p).starts :=
  hσ.life_of_step (Q := fun l => ((σ.thread i).s.prog p).starts ≤ l.starts) (fun _ => id)
    (fun _ _ => id) (fun _ _ => id) (fun _ _ _ hl => hl.trans (Nat.le_succ _)) h hi le_rfl

/-- A program whose dead child waits stays at its command until the child is reaped. -/
theorem Kept.seqIdx_of_step (hσ : σ.Kept) (h : machine.step l σ = .ok σ') (hi : i < σ.count)
    (hown : σ.OwnReaps l σ') (hlim : ((σ.thread i).s.prog p).limits.maxruntime = -1)
    (hz : σ.os.Zombie pid (i, p) status) :
    ((σ'.thread i).s.prog p).seqIdx = ((σ.thread i).s.prog p).seqIdx ∨ ∃ env c,
      l = .thread i env ∧ (σ.thread i).reaps (env 0) σ.os = some c ∧ c.key = (i, p) ∧
        c.status = some status := by
  rcases hσ.toRegular.deed h hi with ⟨env, rfl, -, hdeed⟩ | ⟨-, hs⟩
  · cases hdeed with
    | idle _ hs => exact .inl (hs.seqIdx p)
    | signal _ hs => exact .inl (hs.seqIdx p)
    | expire _ _ _ ht => exact .inl (ht.keeps Life.seqIdx (fun _ => rfl) p)
    | start _ hs => exact .inl (hs.seqIdx p)
    | @death now pri pid' c q w₁ w₂ hpc hreap hq hlen hbury hagain hw =>
      have hprog : (σ'.thread i).s.prog p = w₂.prog p := congrArg (fun w => w.s.prog p) hw
      by_cases hqp : q = p
      · right
        subst hqp
        have hc := Thread.mem_children_of_reaps hreap
        have hkey := hσ.sound.key_of_found hc (hown i env c rfl hi hreap) hq
        have hlim' : σ.books.limited (i, q) = false := decide_eq_false (not_not.2 hlim)
        -- it has one child only
        have hpid : pid = c.pid := (hz.slot (b := σ.books) hσ.sound hlim').symm.trans
          (hkey ▸ hσ.sound.sole _ (OS.mem_kids hc) (by rw [hkey]; exact hlim'))
        obtain ⟨d, hd, hdpid, -, hdead⟩ := hz
        obtain rfl : d = c := hσ.sound.child_eq hd hc (hdpid.trans hpid)
        exact ⟨env, d, rfl, hreap, hkey, hdead⟩
      · left
        have hidx : (w₂.prog p).seqIdx = (w₁.prog p).seqIdx :=
          congrArg Life.seqIdx (hagain.other (Ne.symm hqp))
        rw [hprog, hidx]
        exact congrArg Life.seqIdx (hbury.other p (Ne.symm hqp))
    | bury _ _ _ ht => exact .inl (ht.keeps Life.seqIdx (fun _ => rfl) p)
    | stray _ _ hs => exact .inl (hs.seqIdx p)
  · exact .inl (hs.seqIdx p)

/-- `what_next` ran the program of `x` again: its last command ended in a way that the default
actions answer, and it could start. -/
theorem Kept.starts_of_reaps {x : XMLNode} {cfg : Program} {env : ℕ → Env} {c : Child}
    (hσ : σ.Kept) (h : machine.step (.thread i env) σ = .ok σ') (hi : i < σ.count)
    (hx : readProgram x = .ok cfg) (hactions : x.getNamedChild (str "actions") = none)
    (hlimit : x.getNamedChild (str "limit") = none)
    (hcfg : cfg.Frame ((σ.thread i).s.prog p))
    (hself : ((σ.thread i).s.getProgramByName []).getD p = p)
    (hreap : (σ.thread i).reaps (env 0) σ.os = some c) (hkey : c.key = (i, p))
    (hdead : c.status = some status) (hcode : wifsignaled status ∨ wexitstatus status = 0)
    (hlast : ((σ.thread i).s.prog p).seqIdx + 1 = ((σ.thread i).s.prog p).seq.length)
    (hlaunch : (env 2).startable { cfg with seqIdx := 0 } ∧ (env 2).fork.isSome)
    (hmax : ((σ.thread i).s.prog p).starts ≠ 2147483647) (hin' : (σ'.thread i).inLoop) :
    ((σ'.thread i).s.prog p).starts = ((σ.thread i).s.prog p).starts + 1 := by
  obtain ⟨now, hw⟩ := hσ.handleDeath_of_reaps h hi hreap hkey hin'
  obtain ⟨w₂, hnext, hw₂⟩ := World.handleDeath_eq_ok hw
  rw [hdead, Option.getD_some] at hnext
  set w : World := ⟨(σ.thread i).s,
    σ.os.reap (σ.thread i).s.self c (some p) ((σ.thread i).s.prog p).pid⟩
  set w₀ := (w.bury c p now).addDeathEvent now p status
  have hbury : World.Turns p (Life.ended now) w.os 0 w w₀ :=
    (World.turns_bury w c p now).still (World.still_addDeathEvent ..)
  have hframe := hcfg.trans (hbury.frame.prog p)
  have hstarts : (w₀.prog p).starts = ((σ.thread i).s.prog p).starts :=
    hbury.keeps Life.starts (fun _ => rfl) p
  have hended : w₀.Ended x (fun k => env (k + 1)) p := by
    constructor
    case configured => exact ⟨cfg, hx, hframe⟩
    case pid => exact congrArg Life.pid hbury.self
    case stopMode =>
      have hstop : ((σ.thread i).s.prog p).stopMode = 0 := hσ.stopMode i hi p
      rcases (hbury.frame.prog p).stopMode with hm | hm
      · rw [show (w₀.prog p).stopMode = _ from hm, show (w.s.prog p).stopMode = 0 from hstop]
        decide
      · rw [show (w₀.prog p).stopMode = 0 from hm]
        decide
    case last =>
      have hidx : (w₀.prog p).seqIdx = ((σ.thread i).s.prog p).seqIdx :=
        hbury.keeps Life.seqIdx (fun _ => rfl) p
      rw [hidx, hbury.seq]
      exact hlast
    case startable =>
      have hsame : Program.Frame { cfg with seqIdx := 0 } { w₀.prog p with seqIdx := 0 } :=
        ⟨hframe.name, hframe.seq, hframe.home, hframe.stderrfile, hframe.stdoutfile,
          hframe.stopSig, hframe.exitActions, hframe.sgnlActions, hframe.limits, hframe.stopMode⟩
      exact (hsame.startable rfl (env 2)).trans hlaunch.1
    case fork => exact hlaunch.2
    case starts =>
      rw [hstarts]
      exact hmax
  have hname : (w₀.s.getProgramByName []).getD p = p := by
    rw [hbury.frame.getProgramByName]
    exact hself
  have hagain := hended.starts_of_whatNext hactions hlimit ?_ hname hnext
  · have hprog : (σ'.thread i).s.prog p = w₂.prog p := congrArg (fun w => w.s.prog p) hw₂
    rw [hprog, hagain, hstarts]
  · rcases hcode with hsig | hres
    · left
      rw [if_pos hsig, gt_iff_lt, Int.natCast_pos]
      simp only [wifsignaled, Bool.and_eq_true, decide_eq_true_eq] at hsig
      exact hsig.1
    · right
      exact_mod_cast hres

theorem maxruntime_of_readProgram {x : XMLNode} {cfg : Program} (hx : readProgram x = .ok cfg)
    (hlimit : x.getNamedChild (str "limit") = none) : cfg.limits.maxruntime = -1 := by
  have hread := (readProgram_eq_ok hx).1
  rw [hlimit] at hread
  rw [← Except.ok.inj hread]

/-- While the dead process is not reaped the program stays at the end of its commands; the scheduler
that reaps it starts it again. -/
theorem Kept.started_or_zombie_of_step {x : XMLNode} {cfg : Program} (hσ : σ.Kept)
    (h : machine.step l σ = .ok σ') (hi : i < σ.count) (hown : σ.OwnReaps l σ')
    (hx : readProgram x = .ok cfg) (hactions : x.getNamedChild (str "actions") = none)
    (hlimit : x.getNamedChild (str "limit") = none)
    (hcfg : cfg.Frame ((σ.thread i).s.prog p))
    (hself : ((σ.thread i).s.getProgramByName []).getD p = p)
    (hcode : wifsignaled status ∨ wexitstatus status = 0)
    (hlaunch : ∀ env, l = .thread i env →
      (env 2).startable { cfg with seqIdx := 0 } ∧ (env 2).fork.isSome)
    (hmax : ((σ'.thread i).s.prog p).starts < 2147483647) (hin' : (σ'.thread i).inLoop)
    (hz : σ.os.Zombie pid (i, p) status)
    (hlast : ((σ.thread i).s.prog p).seqIdx + 1 = ((σ.thread i).s.prog p).seq.length) :
    ((σ.thread i).s.prog p).starts < ((σ'.thread i).s.prog p).starts ∨
      σ'.os.Zombie pid (i, p) status ∧
        ((σ'.thread i).s.prog p).seqIdx + 1 = ((σ'.thread i).s.prog p).seq.length := by
  have hgrow := hσ.starts_of_step h hi p
  have hlim : ((σ.thread i).s.prog p).limits.maxruntime = -1 :=
    (congrArg Limits.maxruntime hcfg.limits).trans (maxruntime_of_readProgram hx hlimit)
  have hreaped : ∀ env d, l = .thread i env → (σ.thread i).reaps (env 0) σ.os = some d →
      d.key = (i, p) → d.status = some status →
        ((σ.thread i).s.prog p).starts < ((σ'.thread i).s.prog p).starts := by
    rintro env d rfl hreap hkey hdead
    have hone := hσ.starts_of_reaps h hi hx hactions hlimit hcfg hself hreap hkey hdead hcode hlast
      (hlaunch env rfl) (by omega) hin'
    omega
  rcases hσ.zombie_of_step h hown hz with hz' | ⟨env, d, he, hreap, -, hkey, hdead⟩
  · rcases hσ.seqIdx_of_step h hi hown hlim hz with hseq | ⟨env, d, he, hreap, hkey, hdead⟩
    · refine .inr ⟨hz', ?_⟩
      rw [hseq, hlast, (((hσ.frame_of_step h).scheduler i).prog p).seq]
    · exact .inl (hreaped env d he hreap hkey hdead)
  · exact .inl (hreaped env d he hreap hkey hdead)

/-- The number of starts never falls, so what bounds it at the end bounds it all along. -/
theorem Regular.starts_lt_along {n : ℕ} (hσ : σ.Regular) (hi : i < σ.count)
    (h : machine.exec ls σ = .ok σ') (hmax : ((σ'.thread i).s.prog p).starts < n) :
    machine.Along (fun _ _ (τ : Process) => ((τ.thread i).s.prog p).starts < n) ls σ :=
  (always_iff_along.1 (always_of_exec (I := fun τ => τ.Regular ∧ τ.count = σ.count)
    (fun _ _ _ hτ hl hlt => (hτ.1.starts_of_step hl (hτ.2.symm ▸ hi) p).trans_lt hlt)
    (fun _ _ _ hτ hl => ⟨hτ.1.step hl, (hτ.1.frame_of_step hl).count.trans hτ.2⟩)
    ⟨hσ, rfl⟩ h hmax)).2

/-- A program with the default actions whose process has died of a signal or with result 0, at the
end of its commands, is started again within so many steps of the thread, unless the scheduler
leaves its main loop. -/
theorem restarted {x : XMLNode} {cfg : Program} {c : Child} (h₀ : σ₀.Initial)
    (hpre : machine.exec pre σ₀ = .ok σ) (hown₀ : machine.Along OwnReaps pre σ₀)
    (hi : i < σ₀.count) (hx : readProgram x = .ok cfg)
    (hactions : x.getNamedChild (str "actions") = none)
    (hlimit : x.getNamedChild (str "limit") = none)
    (hcfg : cfg.Frame ((σ.thread i).s.prog p)) (hp : p ∈ (σ.thread i).s.programs)
    (hself : ((σ.thread i).s.getProgramByName []).getD p = p) (hc : c ∈ σ.os.children)
    (hkey : c.key = (i, p)) (hdead : c.status = some status)
    (hcode : wifsignaled status ∨ wexitstatus status = 0)
    (hlast : ((σ.thread i).s.prog p).seqIdx + 1 = ((σ.thread i).s.prog p).seq.length)
    (hlaunch : ∀ env, .thread i env ∈ ls →
      (env 2).startable { cfg with seqIdx := 0 } ∧ (env 2).fork.isSome)
    (hown : machine.Along OwnReaps ls σ) (h : machine.exec ls σ = .ok σ')
    (hmax : ((σ'.thread i).s.prog p).starts < 2147483647)
    (hturns : (σ.thread i).s.schedule.units.length + 5 * (σ.thread i).s.programs.length + 6 +
      σ.os.children.length + (σ'.os.forks - σ.os.forks) +
      2 * ((σ'.thread i).s.schedule.added.length - (σ.thread i).s.schedule.added.length) <
        turns i ls) :
    ((σ.thread i).s.prog p).starts < ((σ'.thread i).s.prog p).starts ∨
      (σ'.thread i).inLoop = false := by
  obtain ⟨idx, hidx⟩ := List.mem_iff_getElem?.1 hp
  have hkept := h₀.kept_of_along hown₀ hpre
  have hcount := h₀.count_of_run hpre
  by_cases hin : (σ.thread i).inLoop
  case neg =>
    right
    rw [Bool.not_eq_true] at hin
    exact exec_invariant (fun _ _ _ hloop hl => not_inLoop_of_step hl hloop) hin h
  have hle := Thread.toReap_le idx c.pid hin
  have hstarts := hkept.toRegular.starts_lt_along (hcount.symm ▸ hi) h hmax
  have hlabels : machine.Along (fun _ l (_ : Process) => ∀ env, l = .thread i env →
      (env 2).startable { cfg with seqIdx := 0 } ∧ (env 2).fork.isSome) ls σ := by
    refine along_of_forall (fun l hl _ _ => ?_) σ
    rintro env rfl
    exact hlaunch env hl
  set n := ((σ.thread i).s.prog p).starts with hn
  refine exec_done_along
    (fun σ => (σ.thread i).toReap idx c.pid + σ.os.children.length)
    (fun σ => σ.os.forks + 2 * (σ.thread i).s.schedule.added.length) (Label.own i)
    (I := fun τ => τ.Kept ∧ σ.Frame τ ∧ n ≤ ((τ.thread i).s.prog p).starts ∧
      (n < ((τ.thread i).s.prog p).starts ∨ (τ.thread i).inLoop = false ∨
        τ.os.Zombie c.pid (i, p) status ∧
          ((τ.thread i).s.prog p).seqIdx + 1 = ((τ.thread i).s.prog p).seq.length))
    (D := fun τ => n < ((τ.thread i).s.prog p).starts ∨ (τ.thread i).inLoop = false)
    (fun l τ τ' hτ hl ho => ?_)
    (fun l τ τ' hτ hl _ hd => hd.imp ?_ (not_inLoop_of_step hl))
    (fun l τ τ' hτ hl _ hnot hnot' => ?_)
    ⟨hkept, .refl σ, hn.le, .inr (.inr ⟨⟨c, hc, rfl, hkey, hdead⟩, hlast⟩)⟩
    ((hown.and hstarts).and hlabels) h ?_
  · obtain ⟨hk, hf, hmono, hstate⟩ := hτ
    obtain ⟨⟨ho, hlt⟩, hlaunch⟩ := ho
    have hiτ : i < τ.count := hf.count.symm ▸ hcount.symm ▸ hi
    have hgrow := hk.starts_of_step hl hiτ p
    have hself' : ((τ.thread i).s.getProgramByName []).getD p = p := by
      rw [(hf.scheduler i).getProgramByName]
      exact hself
    refine ⟨hk.step_own hl ho, hf.trans (hk.frame_of_step hl), hmono.trans hgrow, ?_⟩
    rcases hstate with hr | hloop | ⟨hz, hlast'⟩
    · exact .inl (hr.trans_le hgrow)
    · exact .inr (.inl (not_inLoop_of_step hl hloop))
    by_cases hin' : (τ'.thread i).inLoop
    case neg => exact .inr (.inl (by simpa using hin'))
    exact (hk.started_or_zombie_of_step hl hiτ ho hx hactions hlimit
      (hcfg.trans ((hf.scheduler i).prog p)) hself' hcode hlaunch hlt hin' hz hlast').imp
        hmono.trans_lt .inr
  · have hiτ : i < τ.count := hτ.2.1.count.symm ▸ hcount.symm ▸ hi
    exact fun hlt => hlt.trans_le (hτ.1.starts_of_step hl hiτ p)
  · obtain ⟨hk, hf, -, hstate⟩ := hτ
    obtain ⟨hr, hloop⟩ := not_or.1 hnot
    obtain ⟨-, hloop'⟩ := not_or.1 hnot'
    have hz := ((hstate.resolve_left hr).resolve_left hloop).1
    have hiτ : i < τ.count := hf.count.symm ▸ hcount.symm ▸ hi
    refine hk.toReap_of_step hl hiτ ((hf.scheduler i).programs.symm ▸ hidx) ?_ hz
      (eq_true_of_ne_false hloop')
    exact (congrArg Limits.maxruntime (hcfg.trans ((hf.scheduler i).prog p)).limits).trans
      (maxruntime_of_readProgram hx hlimit)
  · rw [turns] at hturns
    omega

/-- A program of that configuration, started at once. -/
def webConfig : SchedulerConfig where
  programs := [(readProgram World.webXml).toOption.getD { name := [] }]
  init := [(.runProg, 0, 0)]

theorem webConfig_initial : (configured [webConfig]).Initial :=
  configured_initial (List.forall_mem_singleton.2
    ⟨List.forall_mem_singleton.2 ⟨rfl, rfl, rfl⟩, by simp [webConfig]⟩)

/-- It is killed, and runs again. -/
theorem restarted_web : ∃ σ σ', machine.exec diedSleeper (configured [webConfig]) = .ok σ ∧
    machine.exec (List.replicate 40 (.thread 0 fun _ => {})) σ = .ok σ' ∧
    (((σ.thread 0).s.prog 0).starts < ((σ'.thread 0).s.prog 0).starts ∨
      (σ'.thread 0).inLoop = false) := by
  obtain ⟨σ, σ', hpre, h, hc, hp, hmax, hturns⟩ : ∃ σ σ',
      machine.exec diedSleeper (configured [webConfig]) = .ok σ ∧
      machine.exec (List.replicate 40 (.thread 0 fun _ => {})) σ = .ok σ' ∧
      σ.os.children = [{ pid := 1, thread := 0, owner := 0, status := some 9 }] ∧
      (σ.thread 0).s.programs = [0] ∧ ((σ'.thread 0).s.prog 0).starts < 2147483647 ∧
      (σ.thread 0).s.schedule.units.length + 5 * (σ.thread 0).s.programs.length + 6 +
        σ.os.children.length + (σ'.os.forks - σ.os.forks) +
        2 * ((σ'.thread 0).s.schedule.added.length - (σ.thread 0).s.schedule.added.length) <
          turns 0 (List.replicate 40 (.thread 0 fun _ => {})) :=
    ⟨_, _, rfl, rfl, rfl, rfl, by decide, by decide⟩
  have hown := (regular_run webConfig_initial hpre).ownReaps_along
    (webConfig_initial.count_of_run hpre)
  obtain ⟨hself, hlast, hcfg⟩ : ((σ.thread 0).s.getProgramByName []).getD 0 = 0 ∧
      ((σ.thread 0).s.prog 0).seqIdx + 1 = ((σ.thread 0).s.prog 0).seq.length ∧
      ((readProgram World.webXml).toOption.getD { name := [] }).Frame ((σ.thread 0).s.prog 0) := by
    cases hpre
    exact ⟨rfl, rfl, by constructor <;> first | rfl | exact .inl rfl⟩
  refine ⟨σ, σ', hpre, h, restarted webConfig_initial hpre
    (webConfig_initial.regular.ownReaps_along rfl _) (by decide) (x := World.webXml) rfl rfl rfl hcfg
    (hp ▸ List.mem_singleton_self _) hself (hc ▸ List.mem_singleton_self _) rfl rfl (.inl rfl)
    hlast (fun env he => ?_) (hown _) h hmax hturns⟩
  cases List.eq_of_mem_replicate he
  decide

end Process

end Peter
