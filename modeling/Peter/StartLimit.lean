import Peter.Orders

/-!
# The restart limit

`starts` counts every command of a sequence, and `what_next` compares it with the limit at the end
of a cycle only.  A program that nobody else starts has one start unit or one child at a time, and
its `starts` is then within the limit and its place in the sequence (`Rationed`); so `starts` is
never above the limit by more than a sequence (`restart_limit`).
-/

namespace Peter

open Schedule

/-! ## The invariant -/

/-- A limit of `L` starts for a program of `n` commands: with `pending` start units, `kids` children
and `starts` processes started it is at place `idx` of its sequence. -/
structure Ration (L : ℤ) (n pending kids starts idx : ℕ) : Prop where
  total : pending + kids ≤ 1
  pending : 0 < pending → starts ≤ L + idx
  kids : 0 < kids → starts ≤ L + idx + 1
  index : idx < n
  starts : starts ≤ L + n

namespace Ration

variable {L : ℤ} {n pending kids starts idx : ℕ}

theorem of_le (h : Ration L n pending kids starts idx) {pending' kids' : ℕ}
    (hp : pending' ≤ pending) (hk : kids' ≤ kids) : Ration L n pending' kids' starts idx where
  total := (Nat.add_le_add hp hk).trans h.total
  pending h0 := h.pending (h0.trans_le hp)
  kids h0 := h.kids (h0.trans_le hk)
  index := h.index
  starts := h.starts

/-- A start unit becomes a child. -/
theorem start (h : Ration L n (pending + 1) kids starts idx) :
    Ration L n pending (kids + 1) (starts + 1) idx := by
  obtain ⟨htotal, hpending, -, hidx, -⟩ := h
  have hle := hpending (Nat.succ_pos _)
  constructor <;> omega

/-- A child ends, and the next place in the sequence orders a start when the limit allows it. -/
theorem follow (h : Ration L n pending (kids + 1) starts idx) {k pending' kids' starts' : ℕ}
    (hk : k ≤ 1) (hlim : k = 0 ∨ (starts : ℤ) ≤ L + (idx + 1) % n)
    (htotal : pending' + starts' ≤ starts + k) (hstarts : starts ≤ starts')
    (hkids : kids' + starts = starts') :
    Ration L n pending' kids' starts' ((idx + 1) % n) := by
  have hlt : (idx + 1) % n < n := Nat.mod_lt _ (by have := h.index; omega)
  have hcast : (((idx + 1) % n : ℕ) : ℤ) = (idx + 1) % n := by push_cast; rfl
  rw [← hcast] at hlim
  have hle := h.starts
  constructor <;> omega

end Ration

namespace Process

variable {σ₀ σ σ' : Process} {l : Label} {own : ℕ → Bool} {p : ProgPtr}

/-- Program `p` is started by its own units only, and only its own `what_next` queues them. -/
structure SelfStarted (own : ℕ → Bool) (p : ProgPtr) (σ : Process) (l : Label) (σ' : Process) :
    Prop where
  queued : σ'.sched.schedule.startsAdded own p ≠ σ.sched.schedule.startsAdded own p →
    ∃ env, l = .thread 0 env ∧ (σ.thread 0).Follows (env 0) σ.os p
  started : (σ'.sched.prog p).starts ≠ (σ.sched.prog p).starts →
    ∀ now wui wu, (σ.thread 0).pc = .firstPass now wui →
      σ.sched.schedule.units[wui.pos]? = some wu → own wu.addr

def Rationed (own : ℕ → Bool) (p : ProgPtr) (σ : Process) : Prop :=
  Ration (σ.sched.prog p).limits.starts (σ.sched.prog p).seq.length
    (σ.sched.schedule.startsPending own p) (σ.os.kidsOf (0, p)) (σ.sched.prog p).starts
    (σ.sched.prog p).seqIdx

/-- Each action list of the program has at most one action for the program itself. -/
def SelfOnce (p : ProgPtr) (σ : Process) : Prop :=
  ∀ res sig al, (σ.sched.prog p).getActions res sig = some al →
    al.countP (fun a => World.SelfStart p ⟨σ.sched, σ.os⟩ a) ≤ 1

theorem Kept.kidsOf_reap (hσ : σ.Kept) (h1 : σ.count = 1) {e : Env} {c : Child} {q : ProgPtr}
    (hreap : (σ.thread 0).reaps e σ.os = some c) (hq : σ.sched.running c.pid = some q)
    (i : ℕ) (slot : ℤ) (p : ProgPtr) : σ.os.kidsOf (0, p) =
      (σ.os.reap i c (some q) slot).kidsOf (0, p) + if p = q then 1 else 0 := by
  obtain ⟨pid, -, hc⟩ := reaps_mem hreap
  have hkids := Balanced.kidsOf_reap hσ.sound (OS.mem_zombies.1 hc).1 i (some q) slot (0, p)
  rw [hσ.key_of_reaps h1 hreap hq] at hkids
  by_cases hpq : p = q
  · subst hpq
    rwa [if_pos rfl] at hkids ⊢
  · rw [if_neg fun h => hpq (congrArg Prod.snd h).symm] at hkids
    rwa [if_neg hpq]

theorem SelfStarted.added_eq (hs : σ.SelfStarted own p l σ')
    (hno : ∀ env, l = .thread 0 env → ¬(σ.thread 0).Follows (env 0) σ.os p) :
    σ'.sched.schedule.startsAdded own p = σ.sched.schedule.startsAdded own p := by
  by_contra hne
  obtain ⟨env, hl, hfollows⟩ := hs.queued hne
  exact hno env hl hfollows

/-- A step that reaps no child of `p` keeps the ration, unless it starts `p`. -/
theorem Rationed.of_less (h : σ.Rationed own p) (hs : σ.SelfStarted own p l σ')
    (hf : (σ.sched.prog p).Frame (σ'.sched.prog p))
    (huses : Uses own p 0 σ.sched.schedule σ'.sched.schedule)
    (hno : ∀ env, l = .thread 0 env → ¬(σ.thread 0).Follows (env 0) σ.os p)
    (hstarts : (σ'.sched.prog p).starts = (σ.sched.prog p).starts)
    (hidx : (σ'.sched.prog p).seqIdx = (σ.sched.prog p).seqIdx)
    (hkids : σ'.os.kidsOf (0, p) ≤ σ.os.kidsOf (0, p)) : σ'.Rationed own p := by
  have hadded := hs.added_eq hno
  unfold Uses at huses
  unfold Rationed at h ⊢
  rw [hf.limits, hf.seq, hstarts, hidx]
  exact h.of_le (by omega) hkids

/-- The first pass starts `p`. -/
theorem Rationed.start (h : σ.Rationed own p) (hs : σ.SelfStarted own p l σ')
    (hf : (σ.sched.prog p).Frame (σ'.sched.prog p))
    (huses : Uses own p 1 σ.sched.schedule σ'.sched.schedule)
    (hno : ∀ env, l = .thread 0 env → ¬(σ.thread 0).Follows (env 0) σ.os p)
    (hstarts : (σ'.sched.prog p).starts = (σ.sched.prog p).starts + 1)
    (hidx : (σ'.sched.prog p).seqIdx = (σ.sched.prog p).seqIdx)
    (hkids : σ'.os.kidsOf (0, p) = σ.os.kidsOf (0, p) + 1) : σ'.Rationed own p := by
  have hadded := hs.added_eq hno
  unfold Uses at huses
  have hpending : Ration (σ.sched.prog p).limits.starts (σ.sched.prog p).seq.length
      (σ'.sched.schedule.startsPending own p + 1) (σ.os.kidsOf (0, p)) (σ.sched.prog p).starts
      (σ.sched.prog p).seqIdx := h.of_le (by omega) le_rfl
  unfold Rationed
  rw [hf.limits, hf.seq, hstarts, hidx, hkids]
  exact hpending.start

/-- `what_next` after the death of a child of `p`. -/
theorem Rationed.follow (h : σ.Rationed own p) (hσ : σ.Kept) (h1 : σ.count = 1)
    (hL : 0 ≤ (σ.sched.prog p).limits.starts) (hself : σ.SelfOnce p) {env : ℕ → Env}
    (hstep : (σ.thread 0).step env σ.os = .ok (σ'.thread 0, σ'.os)) {now pid : ℤ} {pri : ℕ}
    {c : Child} (hpc : (σ.thread 0).pc = .poll now pri pid)
    (hreap : (σ.thread 0).reaps (env 0) σ.os = some c) (hp : σ.sched.running c.pid = some p) :
    σ'.Rationed own p := by
  obtain ⟨env', res, sig, w₁, w₂, hbury, hsched, hnext, hw⟩ :=
    Thread.whatNext_of_step hstep hpc hreap hp
  have hf : (σ.sched.prog p).Frame (w₁.prog p) := hbury.frame.prog p
  have hstarts : (w₁.prog p).starts = (σ.sched.prog p).starts := congrArg Life.starts hbury.self
  have hidx : (w₁.prog p).seqIdx = (σ.sched.prog p).seqIdx := congrArg Life.seqIdx hbury.self
  have hseq : (w₁.prog p).seq = (σ.sched.prog p).seq := hf.seq
  have hlimits : (w₁.prog p).limits = (σ.sched.prog p).limits := hf.limits
  have hkids := hσ.kidsOf_reap h1 hreap hp (σ.thread 0).s.self (σ.sched.prog p).pid p
  rw [if_pos rfl] at hkids
  have hration : Ration (σ.sched.prog p).limits.starts (σ.sched.prog p).seq.length
      (σ.sched.schedule.startsPending own p)
      ((σ.os.reap (σ.thread 0).s.self c (some p) (σ.sched.prog p).pid).kidsOf (0, p) + 1)
      (σ.sched.prog p).starts (σ.sched.prog p).seqIdx := hkids ▸ h
  have hstop : (w₁.prog p).stopMode = 0 := by
    have hstop₀ := hσ.stopMode 0 (by omega) p
    rcases hf.stopMode with h0 | h0
    · exact h0.trans hstop₀
    · exact h0
  obtain ⟨k, hk, hbudget, hlim⟩ := World.budget_whatNext own (w := w₁) (by rwa [hlimits])
    (fun al hal => by
      rw [Program.getActions, hf.exitActions, hf.sgnlActions] at hal
      simp only [World.selfStart_of_frame hbury.frame]
      exact hself res sig al hal)
    hstop (by rw [hidx, hseq]; exact h.index)
    (by rw [hstarts, hlimits, hidx]; exact hration.kids (Nat.succ_pos _)) hnext
  rw [hstarts, hlimits, hidx, hseq] at hlim
  have hprog : σ'.sched.prog p = w₂.prog p := congrArg (fun w => w.s.prog p) hw
  have hsched' : σ'.sched.schedule = w₂.s.schedule := congrArg (fun w => w.s.schedule) hw
  have hos : σ'.os = w₂.os := congrArg World.os hw
  have hturn := hbury.trans (World.turns_incSeqIdx w₁ p)
  have hself₀ : (w₁.incSeqIdx p).s.self = 0 := hturn.frame.self.trans (hσ.self 0 (by omega))
  have hstarts₀ : ((w₁.incSeqIdx p).prog p).starts = (σ.sched.prog p).starts :=
    congrArg Life.starts hturn.self
  have hidx₀ : ((w₁.incSeqIdx p).prog p).seqIdx =
      ((σ.sched.prog p).seqIdx + 1) % (w₁.prog p).seq.length := congrArg Life.seqIdx hturn.self
  have hf' := (hturn.frame.trans hbudget.frame).prog p
  have huses : Uses own p 0 σ.sched.schedule σ'.sched.schedule := (Thread.step_turn hstep).uses
  have htotal_le := hbudget.total_le
  have hadded : (w₁.incSeqIdx p).s.schedule = σ.sched.schedule := hsched
  have hkids' := hbudget.kids
  have hos₀ : (w₁.incSeqIdx p).os =
      σ.os.reap (σ.thread 0).s.self c (some p) (σ.sched.prog p).pid := hturn.os.trans hbury.os
  rw [hself₀, hstarts₀, hos₀] at hkids'
  rw [World.startsTotal, World.startsTotal, hstarts₀, hadded, ← hsched'] at htotal_le
  have hone := hration.total
  unfold Uses at huses
  unfold Rationed
  rw [hprog, hos, show (w₂.prog p).limits = (σ.sched.prog p).limits from hf'.limits,
    show (w₂.prog p).seq = (σ.sched.prog p).seq from hf'.seq, hbudget.seqIdx, hidx₀, hseq]
  refine hration.follow hk hlim ?_ ?_ ?_
  · omega
  · rw [← hstarts₀]
    exact hbudget.starts_le
  · omega

/-- The children of a program change in the steps of its scheduler only. -/
theorem kidsOf_of_command (h : machine.step l σ = .ok σ') (h1 : σ.count = 1)
    (hl : ∀ env, l ≠ .thread 0 env) (k : Key) : σ'.os.kidsOf k = σ.os.kidsOf k := by
  cases l with
  | thread i env =>
    have hi : ¬i < σ.count := fun hlt => hl env (by rw [show i = 0 by omega])
    simp only [machine, step] at h
    rw [if_neg hi] at h
    cases h
    rfl
  | dies pid status =>
    cases h
    exact congrArg (List.countP _) (OS.dies_kids ..)
  | leaves pid =>
    cases h
    exact congrArg (List.countP _) (OS.leaves_kids ..)
  | start i name now =>
    cases h
    exact congrArg (fun os : OS => os.kids.countP _) (addNamed_os ..)
  | stop i name now =>
    cases h
    exact congrArg (fun os : OS => os.kids.countP _) (addNamed_os ..)
  | _ =>
    cases h
    rfl

/-- What a step of the only scheduler means for the count of program `p`: it starts a process of
`p`, reaps one and goes on to its `what_next`, or neither. -/
inductive Share (σ : Process) (env : ℕ → Env) (p : ProgPtr) (σ' : Process) : Prop
  | start (hat : (σ.thread 0).AtStart p) (hno : ¬(σ.thread 0).Follows (env 0) σ.os p)
      (hstarts : (σ'.sched.prog p).starts = (σ.sched.prog p).starts + 1)
      (hidx : (σ'.sched.prog p).seqIdx = (σ.sched.prog p).seqIdx)
      (hkids : σ'.os.kidsOf (0, p) = σ.os.kidsOf (0, p) + 1)
  | follow {now pid : ℤ} {pri : ℕ} {c : Child} (hpc : (σ.thread 0).pc = .poll now pri pid)
      (hreap : (σ.thread 0).reaps (env 0) σ.os = some c) (hp : σ.sched.running c.pid = some p)
  | less (hno : ¬(σ.thread 0).Follows (env 0) σ.os p)
      (hstarts : (σ'.sched.prog p).starts = (σ.sched.prog p).starts)
      (hidx : (σ'.sched.prog p).seqIdx = (σ.sched.prog p).seqIdx)
      (hkids : σ'.os.kidsOf (0, p) ≤ σ.os.kidsOf (0, p))

theorem not_follows_of_reaps {env : ℕ → Env} (h : (σ.thread 0).reaps (env 0) σ.os = none) :
    ¬(σ.thread 0).Follows (env 0) σ.os p := by
  rintro ⟨-, c, hc, -⟩
  cases h.symm.trans hc

theorem Kept.share (hσ : σ.Kept) (h1 : σ.count = 1) {env : ℕ → Env}
    (h : (σ.thread 0).Deed env σ.os ⟨σ'.sched, σ'.os⟩) (p : ProgPtr) : σ.Share env p σ' := by
  have hself : (σ.thread 0).s.self = 0 := hσ.self 0 (by omega)
  cases h with
  | idle hreap hstill =>
    exact .less (not_follows_of_reaps hreap) (hstill.starts p) (hstill.seqIdx p)
      (congrArg (OS.kidsOf · (0, p)) hstill.os).le
  | signal hreap hstill =>
    refine .less (not_follows_of_reaps hreap) (hstill.starts p) (hstill.seqIdx p) ?_
    rw [show σ'.os = _ from hstill.os, OS.kidsOf, OS.kill_kids, OS.kidsOf]
  | expire hpc _ _ ht =>
    refine .less (not_follows_of_reaps (by simp [Thread.reaps, Thread.waitsFor, hpc]))
      (ht.keeps Life.starts (fun _ => rfl) p) (ht.keeps Life.seqIdx (fun _ => rfl) p) ?_
    rw [show σ'.os = _ from ht.os, OS.kidsOf, OS.kill_kids, OS.kidsOf]
  | @start q hat hstart =>
    have hno : ¬(σ.thread 0).Follows (env 0) σ.os p := not_follows_of_reaps hat.reaps
    have hstarts : (σ'.sched.prog p).starts =
        (σ.sched.prog p).starts + if p = q then 1 else 0 := hstart.starts p
    have hidx : (σ'.sched.prog p).seqIdx = (σ.sched.prog p).seqIdx := hstart.seqIdx p
    have hkids : σ'.os.kidsOf (0, p) = σ.os.kidsOf (0, p) + if p = q then 1 else 0 := by
      have hkids := hstart.kidsOf p
      rw [hself] at hkids
      exact hkids
    by_cases hpq : p = q
    · subst hpq
      rw [if_pos rfl] at hstarts hkids
      exact .start hat hno hstarts hidx hkids
    · rw [if_neg hpq] at hstarts hkids
      exact .less hno hstarts hidx hkids.le
  | @death now pri pid c q w₁ w₂ hpc hreap hq hlen hbury hagain hw =>
    by_cases hpq : p = q
    · subst hpq
      exact .follow hpc hreap hq
    · have hno : ¬(σ.thread 0).Follows (env 0) σ.os p := by
        rintro ⟨-, c', hc', hp'⟩
        cases hreap.symm.trans hc'
        cases hq.symm.trans hp'
        exact hpq rfl
      have hprog : σ'.sched.prog p = w₂.prog p := congrArg (fun w => w.s.prog p) hw
      have hlife : (σ'.sched.prog p).life = (σ.sched.prog p).life :=
        hprog ▸ (hagain.other hpq).trans (hbury.other p hpq)
      refine .less hno (congrArg Life.starts hlife) (congrArg Life.seqIdx hlife) ?_
      have hkids := hσ.kidsOf_reap h1 hreap hq (σ.thread 0).s.self (σ.sched.prog q).pid p
      have hagain' := hagain.kidsOf hpq
      rw [hbury.frame.self.trans hself, hbury.os] at hagain'
      rw [if_neg hpq, Nat.add_zero] at hkids
      rw [show σ'.os = w₂.os from congrArg World.os hw, hagain', hkids]
  | bury hloop hreap hq ht =>
    have hkids := hσ.kidsOf_reap h1 hreap hq (σ.thread 0).s.self
    have hno : ¬(σ.thread 0).Follows (env 0) σ.os p := by
      rintro ⟨hin, -⟩
      simp [hloop] at hin
    refine .less hno (ht.keeps Life.starts (fun _ => rfl) p)
      (ht.keeps Life.seqIdx (fun _ => rfl) p) ?_
    rw [show σ'.os = _ from ht.os]
    exact (hkids _ p).ge.trans' (Nat.le_add_right ..)
  | stray hreap hno => exact absurd hno (hσ.found h1 hreap)

theorem Rationed.step (h : σ.Rationed own p) (hσ : σ.Kept) (h1 : σ.count = 1)
    (hL : 0 ≤ (σ.sched.prog p).limits.starts) (hself : σ.SelfOnce p)
    (hs : σ.SelfStarted own p l σ') (hstep : machine.step l σ = .ok σ') : σ'.Rationed own p := by
  have hf : (σ.sched.prog p).Frame (σ'.sched.prog p) :=
    ((hσ.frame_of_step hstep).scheduler 0).prog p
  rcases hσ.toRegular.deed hstep (i := 0) (by omega) with ⟨env, rfl, hrun, hdeed⟩ | ⟨hl, hstill⟩
  · have hturn := Thread.step_turn hrun
    have hother : ¬(σ.thread 0).Follows (env 0) σ.os p → ∀ env', Label.thread 0 env =
        .thread 0 env' → ¬(σ.thread 0).Follows (env' 0) σ.os p := by
      rintro hno env' ⟨⟩
      exact hno
    cases hσ.share h1 hdeed p with
    | start hat hno hstarts hidx hkids =>
      exact h.start hs hf (hturn.uses_start hat (hs.started (by omega))) (hother hno) hstarts hidx
        hkids
    | follow hpc hreap hp => exact h.follow hσ h1 hL hself hrun hpc hreap hp
    | less hno hstarts hidx hkids =>
      exact h.of_less hs hf hturn.uses (hother hno) hstarts hidx hkids
  · refine h.of_less hs hf ?_ (fun env he => absurd he (hl env)) (hstill.starts p)
      (hstill.seqIdx p) (kidsOf_of_command hstep h1 hl (0, p)).le
    rcases thread_of_step hstep 0 with ⟨env, _, _, he, -⟩ | ⟨-, s, hcommand, ht⟩
    · exact absurd he (hl env)
    · rw [show σ'.sched = s from congrArg Thread.s ht]
      cases hcommand with
      | unit => exact uses_pushBack ..
      | _ => exact Uses.of_eq rfl rfl

theorem SelfOnce.of_frame (h : σ.SelfOnce p) (hf : σ.sched.Frame σ'.sched) : σ'.SelfOnce p := by
  intro res sig al hal
  rw [Program.getActions, (hf.prog p).exitActions, (hf.prog p).sgnlActions] at hal
  have hsame : ∀ a, World.SelfStart p ⟨σ'.sched, σ'.os⟩ a ↔ World.SelfStart p ⟨σ.sched, σ.os⟩ a :=
    World.selfStart_of_frame hf
  simp only [hsame]
  exact h res sig al hal

theorem Initial.rationed (h₀ : σ.Initial) (hnew : σ.Newborn)
    (hn : 1 ≤ (σ.sched.prog p).seq.length) (hL : 0 ≤ (σ.sched.prog p).limits.starts)
    (hone : σ.sched.schedule.startsPending own p ≤ 1) : σ.Rationed own p := by
  have hstarts : (σ.sched.prog p).starts = 0 := congrArg Life.starts (hnew 0 p)
  have hidx : (σ.sched.prog p).seqIdx = 0 := congrArg Life.seqIdx (hnew 0 p)
  have hkids : σ.os.kidsOf (0, p) = 0 := by simp [OS.kidsOf, OS.kids, h₀.children]
  unfold Rationed
  rw [hstarts, hidx, hkids]
  constructor <;> omega

/-- A program that is started by one initial unit and otherwise by its own `what_next` is started `L`
times and one sequence more at most, where `L` is its restart limit; and `what_next` of any program
whose `starts` is not above the limit does what it does without a limit. -/
theorem restart_limit {ls : List Label} (h₀ : σ₀.Initial) (hnew : σ₀.Newborn) (h1 : σ₀.count = 1)
    {p : ProgPtr} (hn : 1 ≤ (σ₀.sched.prog p).seq.length)
    (hL : 0 ≤ (σ₀.sched.prog p).limits.starts) (hself : σ₀.SelfOnce p) {own : ℕ → Bool}
    (hone : σ₀.sched.schedule.startsPending own p ≤ 1)
    (halong : machine.Along (SelfStarted own p) ls σ₀) (h : machine.exec ls σ₀ = .ok σ) :
    ((σ.sched.prog p).starts : ℤ) ≤
      (σ₀.sched.prog p).limits.starts + (σ₀.sched.prog p).seq.length ∧
    ((σ₀.sched.prog p).seq.length = 1 →
      ((σ.sched.prog p).starts : ℤ) - 1 ≤ (σ₀.sched.prog p).limits.starts) ∧
    ∀ (w : World) (env : ℕ → Env) (res sig : ℤ),
      ((w.prog p).starts : ℤ) ≤ (w.prog p).limits.starts →
      (w.unrestricted p).whatNext env res sig p =
        (w.whatNext env res sig p).map (World.unrestricted p) := by
  have hstep : ∀ l τ τ', (τ.Kept ∧ τ.count = 1 ∧ σ₀.sched.Frame τ.sched ∧ τ.Rationed own p) →
      machine.step l τ = .ok τ' → SelfStarted own p τ l τ' →
      τ'.Kept ∧ τ'.count = 1 ∧ σ₀.sched.Frame τ'.sched ∧ τ'.Rationed own p := by
    rintro l τ τ' ⟨hτ, hcount, hframe, hration⟩ hl hs
    obtain ⟨hτ', hcount'⟩ := hτ.step_lone hcount hl
    refine ⟨hτ', hcount', hframe.trans ((hτ.frame_of_step hl).scheduler 0),
      hration.step hτ hcount ?_ (hself.of_frame hframe) hs hl⟩
    rwa [(hframe.prog p).limits]
  have hall := Transition.System.always_of_along hstep
    ⟨h₀.kept, h1, .refl _, h₀.rationed hnew hn hL hone⟩ halong
  obtain ⟨-, -, hframe, hration⟩ :=
    Transition.System.always_iff_prefixes.1 hall ls List.prefix_rfl σ h
  have hbound := hration.starts
  rw [(hframe.prog p).limits, (hframe.prog p).seq] at hbound
  exact ⟨hbound, fun hone => by omega, fun w env res sig => w.whatNext_unrestricted env res sig p⟩

/-- A program that starts itself again at its end, once at most. -/
def oneRestart : SchedulerConfig where
  programs := [{
    name := str "job", seq := [str "/bin/job"], limits := { starts := 1 },
    exitActions := fun _ => some [⟨.exec, str "job", 0⟩] }]
  init := [(.runProg, 0, 0)]

/-- The program is started, ends, and is started again by its exit action. -/
def startedAgain : List Label :=
  let step : Label := .thread 0 fun _ => {}
  [step, step, step, step, step, step, .dies 1 0, step]

theorem oneRestart_initial : (configured [oneRestart]).Initial :=
  configured_initial (List.forall_mem_singleton.2 ⟨by simp [oneRestart], by simp [oneRestart]⟩)

theorem oneRestart_newborn : (configured [oneRestart]).Newborn :=
  configured_newborn (List.forall_mem_singleton.2 (by simp [oneRestart, Program.life]))

theorem oneRestart_once : (configured [oneRestart]).SelfOnce 0 := by
  intro res sig al hal
  refine List.countP_le_length.trans ?_
  rw [Program.getActions] at hal
  split_ifs at hal
  · cases hal
  · cases hal
    rfl

theorem oneRestart_selfStarted :
    machine.Along (SelfStarted (fun _ => true) 0) startedAgain (configured [oneRestart]) := by
  unfold startedAgain
  repeat
    intro σ h
    cases h
    refine ⟨⟨fun hne => absurd rfl hne, fun _ _ _ _ _ _ => rfl⟩, ?_⟩
  trivial

theorem restart_limit_oneRestart : ∃ σ,
    machine.exec startedAgain (configured [oneRestart]) = .ok σ ∧ (σ.sched.prog 0).starts = 2 ∧
    ((σ.sched.prog 0).starts : ℤ) - 1 ≤ 1 := by
  obtain ⟨σ, hσ, hstarts⟩ : ∃ σ, machine.exec startedAgain (configured [oneRestart]) = .ok σ ∧
      (σ.sched.prog 0).starts = 2 := ⟨_, rfl, rfl⟩
  have hlimit := restart_limit oneRestart_initial oneRestart_newborn rfl (by decide) (by decide)
    oneRestart_once (by decide) oneRestart_selfStarted hσ
  exact ⟨σ, hσ, hstarts, hlimit.2.1 rfl⟩

end Process

end Peter
