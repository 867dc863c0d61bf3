import Peter.Several

/-!
# Schedulers beside each other

The schedulers of a PETeR share one set of children.  A scheduler that reaps its own children only
never touches those of the others (`Thread.calls_of_step`), so what it does in its main loop beside
the others it can do alone: with the same clock, files, deaths and commands, and the system's
choices of pids and of dead children (`isolated`).
-/

namespace Peter

/-! ## The system of one scheduler -/

/-- The scheduler that made a call. -/
def Obs.thread : Obs → ℕ
  | .fork i _ _ _ => i
  | .kill i _ _ _ _ => i
  | .waited i _ _ _ => i

namespace OS

/-- The children of scheduler `i` and its calls. -/
def only (i : ℕ) (os : OS) : OS where
  children := os.children.filter fun c => c.thread = i
  trace := os.trace.filter fun o => o.thread = i

variable {os os' : OS} {i j : ℕ} {p : ProgPtr} {pid hint : ℤ}

theorem mem_only {c : Child} : c ∈ (os.only i).children ↔ c ∈ os.children ∧ c.thread = i := by
  simp [only]

theorem only_pids_sublist (os : OS) (i : ℕ) : (os.only i).pids.Sublist os.pids :=
  List.filter_sublist.map _

/-- The pid that the system gives can be chosen for the scheduler alone. -/
theorem freshPid_only (os : OS) (i : ℕ) (hint : ℤ) :
    (os.only i).freshPid (os.freshPid hint) = os.freshPid hint := by
  refine if_pos ⟨os.freshPid_pos hint, fun hmem => ?_⟩
  exact os.freshPid_not_mem hint ((os.only_pids_sublist i).subset hmem)

theorem fork_only (os : OS) (i : ℕ) (p : ProgPtr) (hint : ℤ) :
    (os.only i).fork i p (os.freshPid hint) =
      (os.freshPid hint, (os.fork i p hint).2.only i) := by
  have hsib : (os.only i).children.filter (fun c => c.thread = i ∧ c.owner = p) =
      os.children.filter fun c => c.thread = i ∧ c.owner = p := by
    rw [only, List.filter_filter]
    refine List.filter_congr fun c _ => ?_
    by_cases hc : c.thread = i <;> simp [hc]
  unfold fork
  rw [freshPid_only, hsib]
  simp [only, List.filter_append, Obs.thread]

theorem reap_only (os : OS) (i : ℕ) (c : Child) (p : Option ProgPtr) (slot : ℤ) :
    (os.reap i c p slot).only i = (os.only i).reap i c p slot := by
  simp [reap, only, List.filter_append, Obs.thread, List.filter_filter, Bool.and_comm]

theorem childOf_only (hnd : os.pids.Nodup) {c : Child} (hc : c ∈ os.children)
    (hi : c.thread = i) : (os.only i).childOf c.pid = os.childOf c.pid := by
  rw [childOf_of_mem hnd hc]
  exact childOf_of_mem ((os.only_pids_sublist i).nodup hnd) (mem_only.2 ⟨hc, hi⟩)

theorem map_only {f : Child → Child} (hf : ∀ c, (f c).thread = c.thread) :
    (os.children.map f).filter (fun c => c.thread = i) = (os.only i).children.map f := by
  rw [List.filter_map]
  refine congrArg (List.map f) (List.filter_congr fun c _ => ?_)
  simp [hf]

theorem kill_only (hnd : os.pids.Nodup) {c : Child} (hc : c ∈ os.children) (hi : c.thread = i)
    (p : ProgPtr) (sig : ℤ) (cause : Cause) (ok : Bool) :
    (os.kill i p c.pid sig cause ok).only i = (os.only i).kill i p c.pid sig cause ok := by
  unfold kill
  rw [childOf_only hnd hc hi, only]
  dsimp only
  rw [map_only (fun d => by split_ifs <;> rfl)]
  simp [only, List.filter_append, Obs.thread]

theorem dies_only (os : OS) (i : ℕ) (pid : ℤ) (status : ℕ) :
    (os.dies pid status).only i = (os.only i).dies pid status := by
  unfold dies
  rw [only]
  dsimp only
  rw [map_only (fun d => by split_ifs <;> rfl)]
  rfl

theorem leaves_only (os : OS) (i : ℕ) (pid : ℤ) :
    (os.leaves pid).only i = (os.only i).leaves pid := by
  unfold leaves
  rw [only]
  dsimp only
  rw [map_only (fun d => by split_ifs <;> rfl)]
  rfl

theorem zombies_only (os : OS) (i : ℕ) (pid : ℤ) :
    (os.only i).zombies pid = (os.zombies pid).filter fun c => c.thread = i := by
  unfold zombies waitable only
  dsimp only
  simp only [List.filter_filter]
  refine List.filter_congr fun c _ => ?_
  by_cases hi : c.thread = i <;> simp [hi]

/-- Where `waitpid` returns an own child, it can do so for the scheduler alone. -/
theorem exists_pick_only {c : Child} {pick : ℕ} (h : (os.waitpid pid pick).1.child? = some c)
    (hi : c.thread = i) : ∃ pick', ((os.only i).waitpid pid pick').1.child? = some c := by
  apply exists_pick
  rw [zombies_only, List.mem_filter, decide_eq_true_eq]
  exact ⟨mem_zombies_of_waitpid h, hi⟩

/-- Where it returns none, it returns none to the scheduler alone. -/
theorem waitpid_only_of_none {pick : ℕ} (h : (os.waitpid pid pick).1.child? = none) (pick' : ℕ) :
    ((os.only i).waitpid pid pick').1.child? = none := by
  cases hc : ((os.only i).waitpid pid pick').1.child? with
  | none => rfl
  | some c =>
    have hmem := mem_zombies_of_waitpid hc
    rw [zombies_only, List.mem_filter] at hmem
    have hlt := Nat.mod_lt pick (List.length_pos_iff.2 (List.ne_nil_of_mem hmem.1))
    simp [waitpid, List.getElem?_eq_getElem hlt, Waited.child?] at h

theorem fork_only_of_ne (hne : j ≠ i) (p : ProgPtr) (hint : ℤ) :
    (os.fork j p hint).2.only i = os.only i := by
  simp [fork, only, List.filter_append, Obs.thread, hne]

theorem reap_only_of_ne (hne : j ≠ i) (hnd : os.pids.Nodup) {c : Child} (hc : c ∈ os.children)
    (hj : c.thread = j) (p : Option ProgPtr) (slot : ℤ) :
    (os.reap j c p slot).only i = os.only i := by
  have hchildren : (os.children.filter fun d => d.pid ≠ c.pid).filter (fun d => d.thread = i) =
      os.children.filter fun d => d.thread = i := by
    rw [List.filter_filter]
    refine List.filter_congr fun d hd => ?_
    by_cases hi : d.thread = i
    · have hpid : d.pid ≠ c.pid := by
        intro he
        rw [List.inj_on_of_nodup_map hnd hd hc he, hj] at hi
        exact hne hi
      simp [hi, hpid]
    · simp [hi]
  simp only [reap, only, hchildren, List.filter_append]
  simp [Obs.thread, hne]

theorem kill_only_of_ne (hne : j ≠ i) (hnd : os.pids.Nodup) {c : Child} (hc : c ∈ os.children)
    (hj : c.thread = j) (p : ProgPtr) (sig : ℤ) (cause : Cause) (ok : Bool) :
    (os.kill j p c.pid sig cause ok).only i = os.only i := by
  unfold kill
  rw [only]
  dsimp only
  rw [map_only (fun d => by split_ifs <;> rfl), List.filter_append]
  have hsame : (os.only i).children.map (fun d => if d.pid = c.pid then
      { d with signals := d.signals ++ [⟨cause, sig, ok && d.status.isNone⟩] } else d) =
      (os.only i).children := by
    refine (List.map_congr_left fun d hd => ?_).trans (List.map_id _)
    obtain ⟨hd, hi⟩ := mem_only.1 hd
    refine if_neg fun he => ?_
    rw [List.inj_on_of_nodup_map hnd hd hc he, hj] at hi
    exact hne hi
  rw [hsame]
  simp [only, Obs.thread, hne]

end OS

/-! ## The calls of the members -/

/-- The same answers with other choices of the system: of the pid a `fork` would get and of a dead
child. -/
def Env.rechoose (e : Env) (hint : ℤ) (pick : ℕ) : Env :=
  { e with fork := e.fork.map fun _ => hint, pick }

namespace World

variable {w w' : World} {e : Env} {env : ℕ → Env} {p : ProgPtr} {i : ℕ} {res sig : ℤ}

/-- The object of scheduler `i` with the system of scheduler `i`. -/
def only (i : ℕ) (w : World) : World := ⟨w.s, w.os.only i⟩

/-- The pids of the scheduler are those of its children. -/
structure Held (w : World) : Prop where
  nodup : w.os.pids.Nodup
  child : ∀ p, (w.prog p).pid ≠ 0 →
    ∃ c ∈ w.os.children, c.pid = (w.prog p).pid ∧ c.thread = w.s.self

theorem Quiet.held (h : w.Quiet w') (hw : w.Held) : w'.Held := by
  refine ⟨h.os ▸ hw.nodup, fun p hp => ?_⟩
  rw [h.pid] at hp ⊢
  rw [h.os, h.frame.self]
  exact hw.child p hp

theorem forked_only (hi : w.s.self = i) (e : Env) (p : ProgPtr) (hint : ℤ) (pick : ℕ) :
    (w.only i).forked (e.rechoose (w.os.freshPid hint) pick) p (w.os.freshPid hint) =
      (w.forked e p hint).only i := by
  have hfork : (w.only i).os.fork (w.only i).s.self p (w.os.freshPid hint) =
      (w.os.freshPid hint, (w.os.fork w.s.self p hint).2.only i) := by
    subst hi
    exact w.os.fork_only ..
  unfold forked
  rw [hfork]
  rfl

/-- A scheduler can start a program alone as beside the others. -/
theorem run_only (hi : w.s.self = i) (h : w.run e p = .ok w') (pick : ℕ) :
    (w.only i).run (e.rechoose (w.os.freshPid (e.fork.getD 0)) pick) p = .ok (w'.only i) := by
  obtain ⟨w₁, hw₁⟩ : ∃ w₁, w.substitute e p = w₁ := ⟨_, rfl⟩
  obtain ⟨hint, hhint⟩ : ∃ hint, w.os.freshPid (e.fork.getD 0) = hint := ⟨_, rfl⟩
  have hsub : (w.only i).substitute (e.rechoose hint pick) p = w₁.only i := hw₁ ▸ rfl
  have hself : w₁.s.self = i := by rw [← hw₁]; exact hi
  have hos : w₁.os = w.os := by rw [← hw₁]; rfl
  rw [hhint]
  unfold run at h ⊢
  rw [hw₁] at h
  rw [hsub]
  dsimp only at h ⊢
  by_cases hpid : (w.prog p).pid = 0
  case neg =>
    rw [if_pos hpid] at h
    cases h
    exact if_pos hpid
  rw [if_neg (not_not.2 hpid)] at h
  refine (if_neg (not_not.2 hpid)).trans ?_
  by_cases hdir : (!e.checkDir (w₁.prog p).home) = true
  · rw [if_pos hdir] at h
    cases h
    exact if_pos hdir
  rw [if_neg hdir] at h
  refine (if_neg hdir).trans ?_
  cases hcmd : (w₁.prog p).seq[(w₁.prog p).seqIdx]? with
  | none => rw [hcmd] at h; cases h
  | some cmd =>
    rw [hcmd] at h
    rw [show ((w₁.only i).prog p).seq[((w₁.only i).prog p).seqIdx]? = some cmd from hcmd]
    obtain ⟨w₂, hw₂⟩ : ∃ w₂, w₁.setCmd p cmd = w₂ := ⟨_, rfl⟩
    have hset : (w₁.modifyProg p fun prog => { prog with cmd }) = w₂ := hw₂
    have hset' : ((w₁.only i).modifyProg p fun prog => { prog with cmd }) = w₂.only i := hw₂ ▸ rfl
    have hself₂ : w₂.s.self = i := by rw [← hw₂]; exact hself
    have hos₂ : w₂.os = w.os := by rw [← hw₂]; exact hos
    dsimp only at h ⊢
    rw [hset] at h
    rw [hset']
    by_cases hbin : (!e.findBinary (w₂.prog p).home cmd) = true
    · rw [if_pos hbin] at h
      cases h
      exact if_pos hbin
    rw [if_neg hbin] at h
    refine (if_neg hbin).trans ?_
    by_cases herr : (!e.canOpen (w₂.prog p).stderrfile) = true
    · rw [if_pos herr] at h
      cases h
      exact if_pos herr
    rw [if_neg herr] at h
    refine (if_neg herr).trans ?_
    by_cases hout : (!e.canOpen (w₂.prog p).stdoutfile) = true
    · rw [if_pos hout] at h
      cases h
      exact if_pos hout
    rw [if_neg hout] at h
    refine (if_neg hout).trans ?_
    cases hfork : e.fork with
    | none => rw [hfork] at h; cases h
    | some hint₀ =>
      rw [hfork] at h
      have hfork' : (e.rechoose hint pick).fork = some hint := by rw [Env.rechoose, hfork]; rfl
      rw [hfork']
      dsimp only at h ⊢
      split_ifs at h with hmax
      cases h
      refine (if_neg hmax).trans (congrArg Except.ok ?_)
      rw [← forked_only hself₂ e p hint₀ pick, hos₂, ← hhint, hfork]
      rfl

theorem sendSignal_only (hi : w.s.self = i) (hw : w.Held) (e : Env) (p : ProgPtr) (sig : ℤ)
    (cause : Cause) (hint : ℤ) (pick : ℕ) :
    (w.only i).sendSignal (e.rechoose hint pick) p sig cause =
      ((w.sendSignal e p sig cause).1, (w.sendSignal e p sig cause).2.only i) := by
  by_cases hpid : (w.prog p).pid = 0
  · unfold sendSignal
    rw [if_pos hpid]
    exact if_pos hpid
  · obtain ⟨c, hc, hcpid, hthread⟩ := hw.child p hpid
    have hkill := OS.kill_only hw.nodup hc (hthread.trans hi) p sig cause e.killOk
    rw [hcpid] at hkill
    unfold sendSignal
    rw [if_neg hpid]
    refine (if_neg hpid).trans (Prod.ext rfl ?_)
    unfold only
    dsimp only
    rw [hi, hkill]
    rfl

theorem handleLimit_only (hi : w.s.self = i) (hw : w.Held) (e : Env) (now : ℤ) (p : ProgPtr)
    (hint : ℤ) (pick : ℕ) : (w.only i).handleLimit (e.rechoose hint pick) now p =
      (w.handleLimit e now p).only i := by
  unfold handleLimit
  by_cases hlim : (w.prog p).checkRunlimit e.utc = true
  · rw [if_pos hlim]
    refine (if_pos hlim).trans ?_
    rw [sendSignal_only hi hw]
    rfl
  · rw [if_neg hlim]
    exact if_neg hlim

theorem handleUnit_only {now : ℤ} {pos : ℕ} {wu : WorkUnit} (hi : w.s.self = i) (hw : w.Held)
    (h : handleUnit e now pos wu w = .ok w') :
    ∃ hint, ∀ pick, handleUnit (e.rechoose hint pick) now pos wu (w.only i) = .ok (w'.only i) := by
  unfold handleUnit at h ⊢
  cases hty : wu.wType <;> simp only [hty] at h ⊢
  case exit => cases h; exact ⟨0, fun _ => rfl⟩
  case runProg =>
    split_ifs at h ⊢ with hdue
    · cases hp : wu.program with
      | none => rw [hp] at h; cases h
      | some p =>
        simp only [hp] at h ⊢
        cases hrun : w.run e p with
        | error => rw [hrun] at h; cases h
        | ok w₁ =>
          rw [hrun] at h
          cases h
          refine ⟨w.os.freshPid (e.fork.getD 0), fun pick => ?_⟩
          rw [run_only hi hrun pick]
          rfl
    · cases h
      exact ⟨0, fun _ => rfl⟩
  case endProg =>
    split_ifs at h ⊢ with hdue
    · cases hp : wu.program with
      | none => rw [hp] at h; cases h
      | some p =>
        simp only [hp] at h ⊢
        obtain ⟨w₁, hw₁⟩ : ∃ w₁, (w.modifyProg p fun prog => { prog with stopMode := 0 }).addEvent
          now .stop p (-1) = w₁ := ⟨_, rfl⟩
        have hw₁' : ((w.only i).modifyProg p fun prog => { prog with stopMode := 0 }).addEvent
          now .stop p (-1) = w₁.only i := hw₁ ▸ rfl
        have hq : w.Quiet w₁ := by
          rw [← hw₁]
          exact (quiet_modifyProg w p (by constructor <;> simp) rfl rfl).trans
            (quiet_addEvent _ now p (-1) (.inl rfl))
        rw [hw₁] at h
        rw [hw₁']
        cases h
        refine ⟨0, fun pick => ?_⟩
        rw [sendSignal_only (hq.frame.self.trans hi) (hq.held hw)]
        rfl
    · cases h
      exact ⟨0, fun _ => rfl⟩
  case nostart =>
    cases hp : wu.program with
    | none => rw [hp] at h; cases h
    | some p => rw [hp] at h; cases h; exact ⟨0, fun _ => rfl⟩
  case notinit => cases h; exact ⟨0, fun _ => rfl⟩
  case waitPid => cases h; exact ⟨0, fun _ => rfl⟩

theorem checkLimits_only (w : World) (e : Env) (p : ProgPtr) (hint : ℤ) (pick : ℕ) :
    (w.only i).checkLimits (e.rechoose hint pick) p =
      ((w.checkLimits e p).1, (w.checkLimits e p).2.only i) := by
  have hprog : (w.only i).prog p = w.prog p := rfl
  have hutc : (e.rechoose hint pick).utc = e.utc := rfl
  unfold checkLimits
  rw [hprog, hutc]
  refine Prod.ext rfl ?_
  dsimp only
  split_ifs <;> rfl

theorem doAction_only {limitReached : Bool} {a : Action} (hi : w.s.self = i)
    (h : w.doAction e p res sig limitReached a = .ok w') : ∃ hint, ∀ pick,
      (w.only i).doAction (e.rechoose hint pick) p res sig limitReached a = .ok (w'.only i) := by
  rw [doAction_eq] at h
  simp only [doAction_eq]
  obtain ⟨q, hq⟩ : ∃ q, w.target p a = q := ⟨_, rfl⟩
  obtain ⟨w₁, hw₁⟩ : ∃ w₁, w.setAttribs p q res sig = w₁ := ⟨_, rfl⟩
  have hq' : (w.only i).target p a = q := hq
  have hw₁' : (w.only i).setAttribs p q res sig = w₁.only i := hw₁ ▸ rfl
  have hi₁ : w₁.s.self = i := by
    rw [← hw₁]
    exact (quiet_setAttribs ..).frame.self.trans hi
  dsimp only at h
  rw [hq, hw₁] at h
  simp only [hq', hw₁']
  cases hty : a.actionType <;> simp only [hty] at h ⊢
  case exec =>
    split_ifs at h ⊢
    · cases h; exact ⟨0, fun _ => rfl⟩
    · exact ⟨_, fun pick => run_only hi₁ h pick⟩
    · cases h; exact ⟨0, fun _ => rfl⟩
  case kill =>
    split_ifs at h ⊢
    · cases h; exact ⟨0, fun _ => rfl⟩
    · cases h; exact ⟨0, fun _ => rfl⟩
  all_goals
    cases h
    exact ⟨0, fun _ => rfl⟩

theorem doActions_of_first {limitReached : Bool} {a : Action} {al : List Action}
    (h : w.doAction (env 0) p res sig limitReached a = .ok w') :
    w.doActions p res sig limitReached (a :: al) env =
      w'.doActions p res sig limitReached al fun k => env (k + 1) := by
  rw [doActions, h]

theorem doActions_only {limitReached : Bool} {al : List Action} (hi : w.s.self = i)
    (h : w.doActions p res sig limitReached al env = .ok w') : ∃ hint : ℕ → ℤ, ∀ pick,
      (w.only i).doActions p res sig limitReached al (fun k => (env k).rechoose (hint k) pick) =
        .ok (w'.only i) := by
  induction al generalizing env w with
  | nil =>
    cases h
    exact ⟨fun _ => 0, fun _ => rfl⟩
  | cons a al ih =>
    rw [doActions] at h
    cases haction : w.doAction (env 0) p res sig limitReached a with
    | error => rw [haction] at h; cases h
    | ok w₁ =>
      rw [haction] at h
      obtain ⟨hint₀, hfirst⟩ := doAction_only hi haction
      obtain ⟨hint, hrest⟩ := ih ((restart_doAction haction).frame.self.trans hi) h
      refine ⟨fun k => Nat.casesOn k hint₀ hint, fun pick => ?_⟩
      exact (doActions_of_first (hfirst pick)).trans (hrest pick)

theorem whatNext_only (hi : w.s.self = i) (h : w.whatNext env res sig p = .ok w') :
    ∃ hint : ℕ → ℤ, ∀ pick,
      (w.only i).whatNext (fun k => (env k).rechoose (hint k) pick) res sig p =
        .ok (w'.only i) := by
  rw [whatNext_eq] at h
  simp only [whatNext_eq]
  have hprog : (w.only i).prog = w.prog := rfl
  have hinc : (w.only i).incSeqIdx p = (w.incSeqIdx p).only i := rfl
  rw [hprog, hinc]
  split_ifs at h ⊢
  · cases h; exact ⟨fun _ => 0, fun _ => rfl⟩
  · cases h; exact ⟨fun _ => 0, fun _ => rfl⟩
  · cases hal : (w.prog p).getActions res sig with
    | none =>
      rw [hal] at h
      cases h
      exact ⟨fun _ => 0, fun _ => rfl⟩
    | some al =>
      rw [hal] at h
      have hi' := (w.quiet_incSeqIdx p).frame.self.trans hi
      have hq := (w.incSeqIdx p).quiet_checkLimits (env 0) p
      obtain ⟨hint, hdo⟩ := doActions_only (hq.frame.self.trans hi') h
      refine ⟨fun k => Nat.casesOn k 0 hint, fun pick => ?_⟩
      dsimp only [Option.elim_some]
      rw [checkLimits_only]
      exact hdo pick

theorem handleDeath_only {now : ℤ} {c : Child} (hi : w.s.self = i)
    (h : w.handleDeath env now c p = .ok w') : ∃ hint : ℕ → ℤ, ∀ pick,
      (w.only i).handleDeath (fun k => (env k).rechoose (hint k) pick) now c p =
        .ok (w'.only i) := by
  obtain ⟨w₂, hnext, rfl⟩ := handleDeath_eq_ok h
  have hlogged : ((w.bury c p now).addDeathEvent now p (c.status.getD 0)).s.self = i :=
    (((w.bury_frame c p now).trans (addDeathEvent_frame ..)).self).trans hi
  obtain ⟨hint, hnext'⟩ := whatNext_only hlogged hnext
  refine ⟨hint, fun pick => ?_⟩
  have hsame : ((w.only i).bury c p now).addDeathEvent now p (c.status.getD 0) =
      ((w.bury c p now).addDeathEvent now p (c.status.getD 0)).only i := by
    have hprog : ((w.only i).bury c p now).prog p = (w.bury c p now).prog p := rfl
    unfold addDeathEvent
    rw [hprog]
    split_ifs <;> rfl
  unfold handleDeath
  dsimp only
  rw [hsame, hnext' pick]
  rfl

end World

/-! ## The steps of the others -/

namespace World

variable {w w' : World} {p : ProgPtr} {i : ℕ}

theorem Restart.only_eq (h : w.Restart p w') (hne : w.s.self ≠ i) :
    w'.os.only i = w.os.only i := by
  rcases h with h | ⟨e, hint, w₁, h₁, -, h₂⟩
  · rw [h.os]
  · rw [h₂.os, ← h₁.os]
    exact OS.fork_only_of_ne (by rwa [h₁.frame.self]) p hint

theorem Held.sendSignal_only_eq (hw : w.Held) (hne : w.s.self ≠ i) (e : Env) (p : ProgPtr)
    (sig : ℤ) (cause : Cause) : (w.sendSignal e p sig cause).2.os.only i = w.os.only i := by
  unfold sendSignal
  by_cases hpid : (w.prog p).pid = 0
  · rw [if_pos hpid]
  · obtain ⟨c, hc, hcpid, hthread⟩ := hw.child p hpid
    rw [if_neg hpid, ← hcpid]
    exact OS.kill_only_of_ne hne hw.nodup hc hthread ..

theorem Held.handleUnit_only_eq (hw : w.Held) (hne : w.s.self ≠ i) {e : Env} {now : ℤ} {pos : ℕ}
    {wu : WorkUnit} (h : handleUnit e now pos wu w = .ok w') : w'.os.only i = w.os.only i := by
  cases handles_of_handleUnit h with
  | later => rfl
  | exit => rfl
  | @run p w₁ hty hdue hp hrun => exact (restart_run hrun).only_eq hne
  | @stop p w₁ hty hdue hp hw₁ =>
    have hq : w.Quiet w₁ := by
      rw [hw₁]
      exact (quiet_modifyProg w p (by constructor <;> simp) rfl rfl).trans
        (quiet_addEvent _ now p (-1) (.inl rfl))
    have hsignal := (hq.held hw).sendSignal_only_eq (by rwa [hq.frame.self]) e p
      (w₁.prog p).stopSig .endProg
    rwa [hq.os] at hsignal
  | nostart => rfl

theorem Held.handleLimit_only_eq (hw : w.Held) (hne : w.s.self ≠ i) (e : Env) (now : ℤ)
    (p : ProgPtr) : (w.handleLimit e now p).os.only i = w.os.only i := by
  unfold handleLimit
  split_ifs
  · exact hw.sendSignal_only_eq hne ..
  · rfl

theorem handleDeath_only_eq {env : ℕ → Env} {now : ℤ} {c : Child} (hne : w.s.self ≠ i)
    (h : w.handleDeath env now c p = .ok w') : w'.os.only i = w.os.only i := by
  obtain ⟨w₂, hnext, rfl⟩ := handleDeath_eq_ok h
  have hself : ((w.bury c p now).addDeathEvent now p (c.status.getD 0)).s.self = w.s.self :=
    ((w.bury_frame c p now).trans (addDeathEvent_frame ..)).self
  have hos : ((w.bury c p now).addDeathEvent now p (c.status.getD 0)).os = w.os := by
    unfold addDeathEvent
    split_ifs <;> rfl
  rw [← hos]
  exact (restart_whatNext hnext).only_eq (by rwa [hself])

end World

/-- The calls of a scheduler that reaps its own children do not concern the others. -/
theorem Thread.only_eq_of_step {t t' : Thread} {os os' : OS} {env : ℕ → Env} {i : ℕ}
    (hne : t.s.self ≠ i) (hw : World.Held ⟨t.s, os⟩)
    (hown : ∀ c, t.reaps (env 0) os = some c → c.thread = t.s.self)
    (h : t.step env os = .ok (t', os')) : os'.only i = os.only i := by
  obtain ⟨pc, w, hm, rfl, rfl⟩ := step_moves h
  have hreaps : ∀ {c}, t.reaps (env 0) os = some c → ∀ p slot,
      (os.reap t.s.self c p slot).only i = os.only i := fun hc p slot =>
    OS.reap_only_of_ne hne hw.nodup (mem_children_of_reaps hc) (hown _ hc) p slot
  cases hm with
  | jump => rfl
  | leave => rfl
  | enter => rfl
  | unit _ _ hunit => exact hw.handleUnit_only_eq hne hunit
  | erase => rfl
  | limit => exact hw.handleLimit_only_eq hne ..
  | death _ hreap _ hdeath => exact (World.handleDeath_only_eq hne hdeath).trans (hreaps hreap ..)
  | alive => rfl
  | stray hreap => exact hreaps hreap ..
  | bury _ hreap => exact hreaps hreap ..
  | nobody => rfl
  | stop => exact hw.sendSignal_only_eq hne ..
  | stopped => rfl
  | kill => exact hw.sendSignal_only_eq hne ..
  | finish => rfl

/-! ## The steps of the scheduler -/

namespace Thread

variable {t t' : Thread} {os os' : OS} {env : ℕ → Env} {i : ℕ} {pc : Pc}

theorem goto_only {w : World} (h : t.goto pc w = .ok (t', os')) :
    t.goto pc (w.only i) = .ok (t', os'.only i) := by
  cases h
  rfl

theorem stepFirstPass_only {e : Env} {now : ℤ} {wui : Iter} (hi : t.s.self = i)
    (hw : World.Held ⟨t.s, os⟩) (h : t.stepFirstPass e os now wui = .ok (t', os')) :
    ∃ hint, ∀ pick, t.stepFirstPass (e.rechoose hint pick) (os.only i) now wui =
      .ok (t', os'.only i) := by
  unfold stepFirstPass at h ⊢
  by_cases hcap : wui.capacity ≠ t.s.schedule.capacity
  · rw [if_pos hcap] at h
    cases h
  rw [if_neg hcap] at h
  simp only [if_neg hcap]
  cases hwu : t.s.schedule.units[wui.pos]? with
  | none =>
    rw [hwu] at h
    exact ⟨0, fun _ => goto_only h⟩
  | some wu =>
    rw [hwu] at h
    dsimp only at h ⊢
    cases hunit : World.handleUnit e now wui.pos wu ⟨t.s, os⟩ with
    | error => rw [hunit] at h; cases h
    | ok w =>
      obtain ⟨hint, hsame⟩ := World.handleUnit_only (w := ⟨t.s, os⟩) hi hw hunit
      rw [hunit] at h
      refine ⟨hint, fun pick => ?_⟩
      rw [show World.handleUnit (e.rechoose hint pick) now wui.pos wu ⟨t.s, os.only i⟩ = _ from
        hsame pick]
      exact goto_only h

theorem stepPoll_of_child {now pid : ℤ} {pri : ℕ} {c : Child} {p : ProgPtr} {w : World}
    (h : World.wait ⟨t.s, os⟩ (env 0) pid = (.child c, some p, w)) :
    t.stepPoll env os now pri pid =
      t.gotoAfter (.poll now pri pid) (w.handleDeath (fun k => env (k + 1)) now c p) := by
  rw [stepPoll, h]

/-- The reaper is given its child, or none, alone as beside the others. -/
theorem stepPoll_only {now pid : ℤ} {pri : ℕ} (hi : t.s.self = i)
    (hown : ∀ c, (os.waitpid pid (env 0).pick).1.child? = some c → c.thread = i)
    (h : t.stepPoll env os now pri pid = .ok (t', os')) (hloop : t'.inLoop) :
    ∃ (hint : ℕ → ℤ) (pick : ℕ), t.stepPoll (fun k => (env k).rechoose (hint k) pick) (os.only i)
      now pri pid = .ok (t', os'.only i) := by
  subst hi
  unfold stepPoll at h
  rcases World.wait_cases ⟨t.s, os⟩ (env 0) pid with
    ⟨c, p, hc, hp, he⟩ | ⟨c, hc, hp, he⟩ | ⟨hc, he⟩
  · rw [he] at h
    dsimp only at h
    cases hdeath : World.handleDeath (fun k => env (k + 1)) now c p
        ⟨t.s, os.reap t.s.self c (some p) (World.prog ⟨t.s, os⟩ p).pid⟩ with
    | error => rw [hdeath] at h; cases h
    | ok w =>
      rw [hdeath] at h
      obtain ⟨pick, hpick⟩ := OS.exists_pick_only hc (hown c hc)
      obtain ⟨hint, hsame⟩ := World.handleDeath_only rfl hdeath
      refine ⟨fun k => Nat.casesOn k 0 hint, pick, ?_⟩
      rcases World.wait_cases ⟨t.s, os.only t.s.self⟩ ((env 0).rechoose 0 pick) pid with
        ⟨c', p', hc', hp', he'⟩ | ⟨c', hc', hp', -⟩ | ⟨hc', -⟩
      · cases hc'.symm.trans hpick
        cases hp'.symm.trans hp
        have hreap : World.only t.s.self ⟨t.s, os.reap t.s.self c (some p) (t.s.prog p).pid⟩ =
            ⟨t.s, (os.only t.s.self).reap t.s.self c (some p) (t.s.prog p).pid⟩ :=
          congrArg (World.mk t.s) (os.reap_only ..)
        have hsame' := hsame pick
        rw [show World.prog ⟨t.s, os⟩ p = t.s.prog p from rfl, hreap] at hsame'
        refine (stepPoll_of_child he').trans ((congrArg (t.gotoAfter _) hsame').trans ?_)
        exact goto_only h
      · cases hc'.symm.trans hpick
        exact absurd (hp'.symm.trans hp) nofun
      · exact absurd (hc'.symm.trans hpick) nofun
  · rw [he] at h
    cases h
    simp [inLoop] at hloop
  · have hgo : t.goto (.deaths now (pri + 1)) ⟨t.s, os⟩ = .ok (t', os') := by
      rcases he with he | he <;> rwa [he] at h
    refine ⟨fun _ => 0, 0, ?_⟩
    unfold stepPoll
    rcases World.wait_cases ⟨t.s, os.only t.s.self⟩ ((env 0).rechoose 0 0) pid with
      ⟨c', _, hc', -, -⟩ | ⟨c', hc', -, -⟩ | ⟨-, he'⟩
    · exact absurd ((OS.waitpid_only_of_none hc _).symm.trans hc') nofun
    · exact absurd ((OS.waitpid_only_of_none hc _).symm.trans hc') nofun
    · rcases he' with he' | he' <;>
      · dsimp only
        rw [he']
        exact goto_only hgo

/-- A scheduler can make each step of its main loop alone. -/
theorem step_only (hi : t.s.self = i) (hw : World.Held ⟨t.s, os⟩)
    (hown : ∀ c, t.reaps (env 0) os = some c → c.thread = i)
    (h : t.step env os = .ok (t', os')) (hloop : t'.inLoop) : ∃ (hint : ℕ → ℤ) (pick : ℕ),
      t.step (fun k => (env k).rechoose (hint k) pick) (os.only i) = .ok (t', os'.only i) := by
  have hin := inLoop_of_step h hloop
  unfold step at h ⊢
  dsimp only at h ⊢
  cases hpc : t.pc <;> simp only [hpc, inLoop, Bool.false_eq_true] at h hin ⊢
  case loop =>
    split_ifs at h ⊢
    · exact ⟨fun _ => 0, 0, goto_only h⟩
    · exact ⟨fun _ => 0, 0, goto_only h⟩
  case firstPass now wui =>
    obtain ⟨hint, hsame⟩ := stepFirstPass_only hi hw h
    exact ⟨fun _ => hint, 0, hsame 0⟩
  case limits now pri =>
    cases hp : t.s.programs[pri]? with
    | none =>
      rw [hp] at h
      exact ⟨fun _ => 0, 0, goto_only h⟩
    | some p =>
      rw [hp] at h
      refine ⟨fun _ => 0, 0, ?_⟩
      dsimp only at h ⊢
      rw [show World.handleLimit ((env 0).rechoose 0 0) now p ⟨t.s, os.only i⟩ = _ from
        World.handleLimit_only (w := ⟨t.s, os⟩) hi hw ..]
      exact goto_only h
  case deaths now pri =>
    refine ⟨fun _ => 0, 0, ?_⟩
    cases hp : t.s.programs[pri]? with
    | none =>
      rw [hp] at h
      exact goto_only h
    | some p =>
      rw [hp] at h
      exact goto_only h
  case poll now pri pid =>
    refine stepPoll_only hi (fun c hc => hown c ?_) h hloop
    rw [reaps, waitsFor, hpc]
    exact hc

end Thread

/-! ## Runs -/

/-- The label is for scheduler `i`, or about a child. -/
def Label.concerns (i : ℕ) : Label → Bool
  | .thread j _ => j = i
  | .dies _ _ => true
  | .leaves _ => true
  | .quit j _ => j = i
  | .start j _ _ => j = i
  | .stop j _ _ => j = i
  | .interrupt j => j = i

/-- The same label with other choices of the system. -/
inductive Label.Rechosen : Label → Label → Prop
  | thread {i : ℕ} {env : ℕ → Env} (hint : ℕ → ℤ) (pick : ℕ) :
      Rechosen (.thread i env) (.thread i fun k => (env k).rechoose (hint k) pick)
  | refl (l : Label) : Rechosen l l

namespace Process

variable {σ₀ σ σ' : Process} {l : Label} {ls : List Label} {i : ℕ}

theorem put_put (σ : Process) (i : ℕ) (t t' : Thread) (os os' : OS) :
    (σ.put i t os).put i t' os' = σ.put i t' os' := by
  simp [put]

theorem put_self (σ : Process) (i : ℕ) : σ.put i (σ.thread i) σ.os = σ := by
  simp [put]

/-- Scheduler `i` as it is in `σ`, and the others as they are in `σ₀`, without children. -/
def alone (i : ℕ) (σ₀ σ : Process) : Process := σ₀.put i (σ.thread i) (σ.os.only i)

theorem alone_put (σ₀ σ : Process) (t : Thread) (os : OS) :
    alone i σ₀ (σ.put i t os) = (alone i σ₀ σ).put i t (os.only i) := by
  rw [alone, alone, put_put]
  simp [put]

theorem thread_alone (i : ℕ) (σ₀ σ : Process) : (alone i σ₀ σ).thread i = σ.thread i := by
  simp [alone, put]

theorem Kept.held (hσ : σ.Kept) (hi : i < σ.count) : World.Held ⟨(σ.thread i).s, σ.os⟩ := by
  refine ⟨hσ.sound.pids_nodup, fun p hp => ?_⟩
  obtain ⟨c, hc, hpid, hkey⟩ := OS.exists_of_mem_kids (hσ.sound.held (i, p) hp)
  exact ⟨c, hc, hpid, (congrArg Prod.fst hkey).trans (hσ.self i hi).symm⟩

theorem put_thread_of_ne {j : ℕ} (h : j ≠ i) (σ : Process) (t : Thread) (os : OS) :
    (σ.put j t os).thread i = σ.thread i := Function.update_of_ne h.symm ..

theorem addNamed_thread_of_ne {j : ℕ} (h : j ≠ i) (σ : Process) (ty : WType) (name : Str)
    (now : ℤ) : (σ.addNamed j ty name now).thread i = σ.thread i := by
  unfold addNamed
  split
  · exact put_thread_of_ne h ..
  · rfl

/-- The steps of the others leave the scheduler and its system alone. -/
theorem Kept.alone_eq (hσ : σ.Kept) (h : machine.step l σ = .ok σ') (hown : σ.OwnReaps l σ')
    (hl : l.concerns i = false) : alone i σ₀ σ' = alone i σ₀ σ := by
  suffices hsame : σ'.thread i = σ.thread i ∧ σ'.os.only i = σ.os.only i by
    rw [alone, alone, hsame.1, hsame.2]
  have hne : ∀ {j : ℕ}, decide (j = i) = false → j ≠ i := fun h => of_decide_eq_false h
  cases l with
  | thread j env =>
    simp only [machine, Process.step] at h
    split_ifs at h with hj
    · cases hstep : (σ.thread j).step env σ.os with
      | error => rw [hstep] at h; cases h
      | ok r =>
        rw [hstep] at h
        cases h
        have hself := hσ.self j hj
        refine ⟨put_thread_of_ne (hne hl) .., Thread.only_eq_of_step ?_ (hσ.held hj) ?_ hstep⟩
        · rw [hself]
          exact hne hl
        · intro c hc
          exact (hown j env c rfl hj hc).trans hself.symm
    · cases h
      exact ⟨rfl, rfl⟩
  | dies => simp [Label.concerns] at hl
  | leaves => simp [Label.concerns] at hl
  | quit => cases h; exact ⟨put_thread_of_ne (hne hl) .., rfl⟩
  | start =>
    cases h
    exact ⟨addNamed_thread_of_ne (hne hl) .., congrArg (OS.only i) (σ.addNamed_os ..)⟩
  | stop =>
    cases h
    exact ⟨addNamed_thread_of_ne (hne hl) .., congrArg (OS.only i) (σ.addNamed_os ..)⟩
  | interrupt => cases h; exact ⟨put_thread_of_ne (hne hl) .., rfl⟩

theorem addWorkunit_alone (σ₀ σ : Process) (ty : WType) (tAt : ℤ) (p : Option ProgPtr) :
    (alone i σ₀ σ).addWorkunit i ty tAt p = alone i σ₀ (σ.addWorkunit i ty tAt p) := by
  unfold addWorkunit
  rw [alone_put, thread_alone]
  rfl

theorem addNamed_alone (σ₀ σ : Process) (ty : WType) (name : Str) (now : ℤ) :
    (alone i σ₀ σ).addNamed i ty name now = alone i σ₀ (σ.addNamed i ty name now) := by
  unfold addNamed
  rw [thread_alone]
  split
  · exact addWorkunit_alone ..
  · rfl

/-- The scheduler can make its own step alone. -/
theorem Kept.step_alone (hσ : σ.Kept) (hi : i < σ.count) (hi₀ : i < σ₀.count)
    (h : machine.step l σ = .ok σ') (hown : σ.OwnReaps l σ') (hl : l.concerns i = true)
    (hloop : (σ'.thread i).inLoop) :
    ∃ l', l.Rechosen l' ∧ machine.step l' (alone i σ₀ σ) = .ok (alone i σ₀ σ') := by
  cases l with
  | thread j env =>
    obtain rfl : j = i := of_decide_eq_true hl
    simp only [machine, Process.step, if_pos hi] at h
    cases hstep : (σ.thread j).step env σ.os with
    | error => rw [hstep] at h; cases h
    | ok r =>
      obtain ⟨t, os⟩ := r
      rw [hstep] at h
      cases h
      have ht : (σ.put j t os).thread j = t := by simp [put]
      rw [ht] at hloop
      obtain ⟨hint, pick, hsame⟩ := Thread.step_only (hσ.self j hi) (hσ.held hi)
        (hown j env · rfl hi) hstep hloop
      refine ⟨_, .thread hint pick, ?_⟩
      rw [alone_put]
      refine step_thread hi₀ ?_
      rw [thread_alone]
      exact hsame
  | dies pid status =>
    cases h
    refine ⟨_, .refl _, congrArg Except.ok ?_⟩
    rw [alone, alone, OS.dies_only]
    rfl
  | leaves pid =>
    cases h
    refine ⟨_, .refl _, congrArg Except.ok ?_⟩
    rw [alone, alone, OS.leaves_only]
    rfl
  | quit j now =>
    obtain rfl : j = i := of_decide_eq_true hl
    cases h
    exact ⟨_, .refl _, congrArg Except.ok (addWorkunit_alone ..)⟩
  | start j name now =>
    obtain rfl : j = i := of_decide_eq_true hl
    cases h
    exact ⟨_, .refl _, congrArg Except.ok (addNamed_alone ..)⟩
  | stop j name now =>
    obtain rfl : j = i := of_decide_eq_true hl
    cases h
    exact ⟨_, .refl _, congrArg Except.ok (addNamed_alone ..)⟩
  | interrupt j =>
    obtain rfl : j = i := of_decide_eq_true hl
    cases h
    refine ⟨_, .refl _, congrArg Except.ok ?_⟩
    unfold setOff
    rw [alone_put, thread_alone]
    rfl

theorem Initial.alone_eq (h₀ : σ₀.Initial) (i : ℕ) : alone i σ₀ σ₀ = σ₀ := by
  have hos : σ₀.os = ⟨[], []⟩ := by rw [← h₀.children, ← h₀.trace]
  have honly : σ₀.os.only i = σ₀.os := by
    rw [hos]
    rfl
  rw [alone, honly, put_self]

/-- Where every scheduler reaps its own children only, what scheduler `i` comes to in its main loop
it can come to with none of the others making a step: with the same clock, files, deaths and
commands, and the system's choices of pids and of dead children. -/
theorem isolated (h₀ : σ₀.Initial) (hi : i < σ₀.count) (hown : machine.Along OwnReaps ls σ₀)
    (h : machine.exec ls σ₀ = .ok σ) (hloop : (σ.thread i).inLoop) :
    ∃ ls', List.Forall₂ Label.Rechosen (ls.filter (Label.concerns i)) ls' ∧
      machine.exec ls' σ₀ = .ok (σ₀.put i (σ.thread i) (σ.os.only i)) := by
  have hloops := Transition.System.always_of_exec (I := fun _ => True)
    (Q := fun τ => (τ.thread i).inLoop) (fun l τ τ' _ hl hin => inLoop_of_step hl hin)
    (fun _ _ _ _ _ => trivial) trivial h hloop
  have hkept : machine.Along (fun τ l τ' => (τ.Kept ∧ τ.count = σ₀.count) ∧ τ.OwnReaps l τ')
      ls σ₀ :=
    hown.imp_of_invariant (I := fun τ => τ.Kept ∧ τ.count = σ₀.count)
      (fun l τ τ' hτ _ ho => ⟨hτ, ho⟩)
      (fun l τ τ' hτ hl ho => ⟨hτ.1.step_own hl ho, (hτ.1.frame_of_step hl).count.trans hτ.2⟩)
      ⟨h₀.kept, rfl⟩
  have hrun : ∃ ls', List.Forall₂ Label.Rechosen (ls.filter (Label.concerns i)) ls' ∧
      machine.exec ls' (alone i σ₀ σ₀) = .ok (alone i σ₀ σ) :=
    Transition.System.exec_filter
      (fun l τ τ' hl hτ hc => hτ.1.1.1.step_alone (hτ.1.1.2 ▸ hi) hi hl hτ.1.2 hc hτ.2)
      (fun l τ τ' hl hτ hc => hτ.1.1.1.alone_eq hl hτ.1.2 hc)
      (hkept.and (Transition.System.always_iff_along.1 hloops).2) h
  rwa [h₀.alone_eq] at hrun

/-- Two schedulers start their programs, the second one dies and is reaped. -/
def sideBySide : List Label :=
  List.replicate 2 (.thread 0 fun _ => {}) ++ List.replicate 2 (.thread 1 fun _ => {}) ++
    [.dies 2 0] ++ List.replicate 5 (.thread 1 fun _ => {})

theorem isolated_sleepers : ∃ σ ls', machine.exec sideBySide (.configured [.sleeper, .sleeper]) =
      .ok σ ∧ (σ.thread 1).s.elist.length = 2 ∧
    List.Forall₂ Label.Rechosen (sideBySide.filter (Label.concerns 1)) ls' ∧
    machine.exec ls' (.configured [.sleeper, .sleeper]) =
      .ok ((Process.configured [.sleeper, .sleeper]).put 1 (σ.thread 1) (σ.os.only 1)) := by
  have hinit : (Process.configured [.sleeper, .sleeper]).Initial :=
    configured_initial (by simp [SchedulerConfig.sleeper_fresh])
  obtain ⟨σ, hσ, hlog, hloop⟩ : ∃ σ, machine.exec sideBySide (.configured [.sleeper, .sleeper]) =
      .ok σ ∧ (σ.thread 1).s.elist.length = 2 ∧ (σ.thread 1).inLoop := ⟨_, rfl, rfl, rfl⟩
  obtain ⟨ls', hls, hexec⟩ := isolated hinit (i := 1) (by decide) (by decide) hσ hloop
  exact ⟨σ, ls', hσ, hlog, hls, hexec⟩

end Process

end Peter
