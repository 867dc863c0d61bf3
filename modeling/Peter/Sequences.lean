import Peter.Bookkeeping
import Peter.Deeds

/-!
# Sequences of commands

For a PETeR with one scheduler: the place of a program in its sequence counts the children of it
that were reaped, and each process it starts runs the command at that place.  Without `maxruntime`
a program is only started when all its processes are reaped, so that its processes run the commands
of the sequence in turn (`sequences_cycle`).
-/

namespace Peter

/-! ## Processes started and reaped -/

/-- `fork` by `run` of the program. -/
def Obs.forks (k : Key) : Obs → Bool
  | .fork i p _ _ => (i, p) = k
  | _ => false

/-- `waitpid` returned a child of the program. -/
def Obs.reaps (k : Key) : Obs → Bool
  | .waited _ c _ _ => c.key = k
  | _ => false

/-- How many processes of a program were started. -/
def OS.forksOf (os : OS) (k : Key) : ℕ := os.trace.countP (Obs.forks k)

/-- How many children of a program were reaped. -/
def OS.reapsOf (os : OS) (k : Key) : ℕ := os.trace.countP (Obs.reaps k)

namespace OS

variable (os : OS) (k : Key)

theorem forksOf_fork (i : ℕ) (p : ProgPtr) (hint : ℤ) :
    (os.fork i p hint).2.forksOf k = os.forksOf k + if (i, p) = k then 1 else 0 := by
  simp [forksOf, fork, Obs.forks, List.countP_append, List.countP_cons]

theorem reapsOf_fork (i : ℕ) (p : ProgPtr) (hint : ℤ) :
    (os.fork i p hint).2.reapsOf k = os.reapsOf k := by
  simp [reapsOf, fork, Obs.reaps, List.countP_append]

theorem forksOf_kill (i : ℕ) (p : ProgPtr) (pid sig : ℤ) (cause : Cause) (ok : Bool) :
    (os.kill i p pid sig cause ok).forksOf k = os.forksOf k := by
  simp [forksOf, kill, Obs.forks, List.countP_append]

theorem reapsOf_kill (i : ℕ) (p : ProgPtr) (pid sig : ℤ) (cause : Cause) (ok : Bool) :
    (os.kill i p pid sig cause ok).reapsOf k = os.reapsOf k := by
  simp [reapsOf, kill, Obs.reaps, List.countP_append]

theorem forksOf_reap (i : ℕ) (c : Child) (p : Option ProgPtr) (slot : ℤ) :
    (os.reap i c p slot).forksOf k = os.forksOf k := by
  simp [forksOf, reap, Obs.forks, List.countP_append]

theorem reapsOf_reap (i : ℕ) (c : Child) (p : Option ProgPtr) (slot : ℤ) :
    (os.reap i c p slot).reapsOf k = os.reapsOf k + if c.key = k then 1 else 0 := by
  simp [reapsOf, reap, Obs.reaps, List.countP_append, List.countP_cons]

end OS

/-- A process that was started is reaped or a child still. -/
def Tallied (b : Books) : Prop := ∀ k, b.os.forksOf k = b.os.reapsOf k + b.os.kidsOf k

theorem Tallied.of_kids {b b' : Books} (hb : Tallied b) (htrace : b'.os.trace = b.os.trace)
    (hkids : b'.os.kids = b.os.kids) : Tallied b' := by
  intro k
  rw [OS.forksOf, OS.reapsOf, OS.kidsOf, htrace, hkids]
  exact hb k

theorem Tallied.reap {b : Books} (hb : Tallied b) (hs : Sound b) {c : Child}
    (hc : c ∈ b.os.children) (i : ℕ) (p : Option ProgPtr) (slot : ℤ) (k : Key) :
    (b.os.reap i c p slot).forksOf k =
      (b.os.reap i c p slot).reapsOf k + (b.os.reap i c p slot).kidsOf k := by
  have hkids := Balanced.kidsOf_reap hs hc i p slot k
  rw [OS.forksOf_reap, OS.reapsOf_reap, hb k, hkids]
  omega

theorem Tallied.kill {b : Books} (hb : Tallied b) (i : ℕ) (p : ProgPtr) (pid sig : ℤ)
    (cause : Cause) (ok : Bool) (k : Key) : (b.os.kill i p pid sig cause ok).forksOf k =
      (b.os.kill i p pid sig cause ok).reapsOf k + (b.os.kill i p pid sig cause ok).kidsOf k := by
  rw [OS.forksOf_kill, OS.reapsOf_kill, OS.kidsOf, OS.kill_kids]
  exact hb k

theorem Tallied.step {b b' : Books} {e : Entry} (hb : Tallied b) (hs : Sound b)
    (h : supervisor.step e b = .ok b') : Tallied b' := by
  cases e with
  | fork k hint t =>
    obtain ⟨-, rfl⟩ := step_fork.1 h
    intro k'
    show (b.os.fork k.1 k.2 hint).2.forksOf k' = (b.os.fork k.1 k.2 hint).2.reapsOf k' +
      (b.os.fork k.1 k.2 hint).2.kidsOf k'
    rw [OS.forksOf_fork, OS.reapsOf_fork, hb k', OS.kidsOf, OS.kidsOf, OS.fork_kids,
      List.countP_append]
    by_cases he : k = k' <;> simp [he, Nat.add_assoc]
  | enter k => cases h; exact hb.of_kids rfl rfl
  | signal k sig cause ok =>
    obtain ⟨-, rfl⟩ := step_signal.1 h
    exact hb.kill k.1 k.2 _ sig cause ok
  | expire k sig ok =>
    obtain ⟨-, rfl⟩ := step_expire.1 h
    exact hb.kill k.1 k.2 _ sig .limit ok
  | bury i c p ev =>
    obtain ⟨hk, rfl⟩ := step_bury.1 h
    exact hb.reap hs hk.1 i (some p) _
  | lose i c =>
    obtain ⟨hk, rfl⟩ := step_lose.1 h
    exact hb.reap hs hk.1 i none 0
  | dies pid status => cases h; exact hb.of_kids rfl (OS.dies_kids ..)
  | leaves pid => cases h; exact hb.of_kids rfl (OS.leaves_kids ..)

/-- A program that runs and has no `maxruntime` limit has one child. -/
theorem Sound.kidsOf_eq_one {b : Books} (hb : Sound b) {k : Key} (hlim : b.limited k = false)
    (hk : b.slot k ≠ 0) : b.os.kidsOf k = 1 := by
  have hnd : b.os.kids.Nodup := hb.nodup.of_map _
  rw [← List.count_eq_one_of_mem hnd (hb.held k hk), OS.kidsOf, List.count]
  refine List.countP_congr fun d hd => ?_
  simp only [decide_eq_true_eq, beq_iff_eq]
  constructor
  · rintro rfl
    exact Prod.ext (hb.sole d hd hlim).symm rfl
  · rintro rfl
    rfl

/-! ## What a step does -/

namespace World

variable {w w' : World} {p : ProgPtr} {e : Env} {env : ℕ → Env}

/-- A process of `p` was started last, with the command the program is at. -/
structure Begun (p : ProgPtr) (w : World) : Prop where
  pid : (w.prog p).pid ≠ 0
  cmd : (w.prog p).seq[(w.prog p).seqIdx]? = some (w.prog p).cmd

theorem Starts.seqIdx (h : w.Starts p e w') (q : ProgPtr) :
    (w'.prog q).seqIdx = (w.prog q).seqIdx := by
  obtain ⟨hint, ht⟩ := h.turns
  exact ht.keeps Life.seqIdx (fun _ => rfl) q

theorem Starts.seq (h : w.Starts p e w') (q : ProgPtr) : (w'.prog q).seq = (w.prog q).seq := by
  obtain ⟨hint, ht⟩ := h.turns
  exact ht.seq q

theorem Starts.begun (h : w.Starts p e w') : w'.Begun p :=
  ⟨h.pid_ne, by rw [h.seqIdx, h.seq, h.cmd]⟩

/-- How a call may count processes: it started one of `p`, or none. -/
def Counts (p : ProgPtr) (w w' : World) : Prop :=
  ∀ q, w'.os.forksOf (w.s.self, q) = w.os.forksOf (w.s.self, q) ∨
    q = p ∧ w'.os.forksOf (w.s.self, q) = w.os.forksOf (w.s.self, q) + 1 ∧ w'.Begun q

theorem Starts.counts (h : w.Starts p e w') : Counts p w w' := by
  obtain ⟨hint, ht⟩ := h.turns
  intro q
  rw [ht.os, OS.forksOf_fork]
  by_cases hq : q = p
  · subst hq
    exact .inr ⟨rfl, by simp, h.begun⟩
  · exact .inl (by simp [Ne.symm hq])

theorem Starts.reapsOf (h : w.Starts p e w') (k : Key) : w'.os.reapsOf k = w.os.reapsOf k := by
  obtain ⟨hint, ht⟩ := h.turns
  rw [ht.os, OS.reapsOf_fork]

/-- A start that may have been made reaps nothing and keeps all places. -/
theorem Again.keeps (h : Again env p w w') : Counts p w w' ∧
    (∀ k, w'.os.reapsOf k = w.os.reapsOf k) ∧
    ∀ q, (w'.prog q).seqIdx = (w.prog q).seqIdx ∧ (w'.prog q).seq = (w.prog q).seq := by
  rcases h with hs | ⟨k, hs⟩
  · exact ⟨fun q => .inl (by rw [hs.os]), fun k => by rw [hs.os],
      fun q => ⟨hs.seqIdx q, hs.seq q⟩⟩
  · exact ⟨hs.counts, hs.reapsOf, fun q => ⟨hs.seqIdx q, hs.seq q⟩⟩

end World

namespace Process

variable {σ₀ σ σ' : Process} {l : Label}

/-- PETeR with one scheduler, in which all processes are accounted for. -/
structure Counted (σ : Process) : Prop extends σ.Kept where
  count : σ.count = 1
  tallied : Tallied σ.books
  index : (σ.thread 0).inLoop → ∀ p, (σ.sched.prog p).seqIdx =
    σ.os.reapsOf (0, p) % (σ.sched.prog p).seq.length

theorem Kept.key_of_reaps (hσ : σ.Kept) (h1 : σ.count = 1) {e : Env} {c : Child} {p : ProgPtr}
    (hreap : (σ.thread 0).reaps e σ.os = some c) (hp : σ.sched.running c.pid = some p) :
    c.key = (0, p) := by
  obtain ⟨pid, -, hc⟩ := reaps_mem hreap
  have hmem := (OS.mem_zombies.1 hc).1
  exact hσ.sound.key_of_found hmem (hσ.thread_zero h1 hmem) hp

theorem Kept.found (hσ : σ.Kept) (h1 : σ.count = 1) {e : Env} {c : Child}
    (hreap : (σ.thread 0).reaps e σ.os = some c) : σ.sched.running c.pid ≠ none := by
  obtain ⟨pid, -, hc⟩ := reaps_mem hreap
  have hmem := (OS.mem_zombies.1 hc).1
  have hfound : σ.sched.running c.pid = some c.owner :=
    hσ.sound.found hmem (hσ.thread_zero h1 hmem)
  simp [hfound]

/-- A step of the main loop takes a program one command further for each child of it that is
reaped. -/
theorem Counted.index_of_step (hσ : σ.Counted) (h : machine.step l σ = .ok σ')
    (hloop : (σ.thread 0).inLoop) (p : ProgPtr) : (σ'.sched.prog p).seqIdx =
      σ'.os.reapsOf (0, p) % (σ'.sched.prog p).seq.length := by
  have hidx := hσ.index hloop p
  have h1 := hσ.count
  have hkeep : (σ'.sched.prog p).seqIdx = (σ.sched.prog p).seqIdx →
      (σ'.sched.prog p).seq = (σ.sched.prog p).seq →
      σ'.os.reapsOf (0, p) = σ.os.reapsOf (0, p) → (σ'.sched.prog p).seqIdx =
        σ'.os.reapsOf (0, p) % (σ'.sched.prog p).seq.length := by
    intro hi hs hr
    rw [hi, hs, hr, hidx]
  rcases hσ.toRegular.deed h (i := 0) (by omega) with ⟨env, -, -, hdeed⟩ | ⟨hl, hstill⟩
  · cases hdeed with
    | idle _ hs =>
      exact hkeep (hs.seqIdx p) (hs.seq p) (congrArg (OS.reapsOf · (0, p)) hs.os)
    | signal _ hs =>
      refine hkeep (hs.seqIdx p) (hs.seq p) ?_
      rw [show σ'.os = _ from hs.os]
      exact OS.reapsOf_kill ..
    | expire _ _ _ ht =>
      refine hkeep (ht.keeps Life.seqIdx (fun _ => rfl) p) (ht.seq p) ?_
      rw [show σ'.os = _ from ht.os]
      exact OS.reapsOf_kill ..
    | start _ hs => exact hkeep (hs.seqIdx p) (hs.seq p) (hs.reapsOf (0, p))
    | @death now pri pid c q w₁ w₂ hpc hreap hq hlen hbury hagain hw =>
      have hkey := hσ.toKept.key_of_reaps h1 hreap hq
      obtain ⟨-, hreaps, hplaces⟩ := hagain.keeps
      have hos : σ'.os = w₂.os := congrArg World.os hw
      have hprog : σ'.sched.prog p = w₂.prog p := congrArg (fun w => w.s.prog p) hw
      have hreaps' : σ'.os.reapsOf (0, p) = σ.os.reapsOf (0, p) + if q = p then 1 else 0 := by
        rw [hos, hreaps, hbury.os, OS.reapsOf_reap, hkey]
        simp
      have hseq : (w₂.prog p).seq = (σ.sched.prog p).seq := (hplaces p).2.trans (hbury.seq p)
      rw [hprog, hreaps', hseq, (hplaces p).1]
      by_cases hqp : q = p
      · subst hqp
        have hlife : (w₁.prog q).seqIdx = ((σ.sched.prog q).seqIdx + 1) %
            (σ.sched.prog q).seq.length := congrArg Life.seqIdx hbury.self
        rw [hlife, hidx, if_pos rfl, Nat.mod_add_mod]
      · have hlife : (w₁.prog p).seqIdx = (σ.sched.prog p).seqIdx :=
          congrArg Life.seqIdx (hbury.other p (Ne.symm hqp))
        rw [hlife, hidx, if_neg hqp, Nat.add_zero]
    | bury hno => exact absurd hloop (by simp [hno])
    | stray hreap hno => exact absurd hno (hσ.toKept.found h1 hreap)
  · have htrace : σ'.os.trace = σ.os.trace := by
      refine trace_of_step h fun i env he => ?_
      by_contra hlt
      obtain rfl : i = 0 := by omega
      exact hl env he
    refine hkeep (hstill.seqIdx p) (hstill.seq p) ?_
    rw [OS.reapsOf, OS.reapsOf, htrace]

/-- A step starts one process of a program, or none; it is in the main loop when it does. -/
theorem Counted.forks_of_step (hσ : σ.Counted) (h : machine.step l σ = .ok σ') (p : ProgPtr) :
    σ'.os.forksOf (0, p) = σ.os.forksOf (0, p) ∨
    σ'.os.forksOf (0, p) = σ.os.forksOf (0, p) + 1 ∧ (σ.thread 0).inLoop ∧
      World.Begun p ⟨σ'.sched, σ'.os⟩ := by
  have h1 := hσ.count
  have hself : (σ.thread 0).s.self = 0 := hσ.self 0 (by omega)
  rcases hσ.toRegular.deed h (i := 0) (by omega) with ⟨env, -, -, hdeed⟩ | ⟨hl, hstill⟩
  · cases hdeed with
    | idle _ hs => exact .inl (congrArg (OS.forksOf · (0, p)) hs.os)
    | signal _ hs =>
      left
      rw [show σ'.os = _ from hs.os]
      exact OS.forksOf_kill ..
    | expire _ _ _ ht =>
      left
      rw [show σ'.os = _ from ht.os]
      exact OS.forksOf_kill ..
    | start hat hs =>
      obtain ⟨now, wui, wu, hpc, -⟩ := hat
      have hcount := hs.counts p
      simp only [hself] at hcount
      refine hcount.imp_right fun hc => ⟨hc.2.1, by simp [Thread.inLoop, hpc], hc.2.2⟩
    | @death now pri pid c q w₁ w₂ hpc hreap hq hlen hbury hagain hw =>
      have hcount := hagain.keeps.1 p
      rw [hbury.frame.self.trans hself, hbury.os, OS.forksOf_reap] at hcount
      have hos : σ'.os = w₂.os := congrArg World.os hw
      rw [hos]
      refine hcount.imp_right fun hc => ⟨hc.2.1, by simp [Thread.inLoop, hpc], ?_⟩
      have hprog : σ'.sched.prog p = w₂.prog p := congrArg (fun w => w.s.prog p) hw
      obtain ⟨hpid, hcmd⟩ := hc.2.2
      rw [← hprog] at hpid hcmd
      exact ⟨hpid, hcmd⟩
    | bury _ _ _ ht =>
      left
      rw [show σ'.os = _ from ht.os]
      exact OS.forksOf_reap ..
    | stray _ _ hs =>
      left
      rw [show σ'.os = _ from hs.os]
      exact OS.forksOf_reap ..
  · left
    have htrace : σ'.os.trace = σ.os.trace := by
      refine trace_of_step h fun i env he => ?_
      by_contra hlt
      obtain rfl : i = 0 := by omega
      exact hl env he
    rw [OS.forksOf, OS.forksOf, htrace]

theorem Counted.step (hσ : σ.Counted) (h : machine.step l σ = .ok σ') : σ'.Counted := by
  have h1 := hσ.count
  have hown := hσ.toRegular.ownDeaths h1 l σ'
  obtain ⟨hf, es, hes, hexec⟩ := step_entries hσ.self h
  refine ⟨hσ.toKept.step h hown, hf.count.trans h1, ?_, fun hloop p => ?_⟩
  · have hstep : ∀ e b b', e.Own → Sound b ∧ Tallied b → supervisor.step e b = .ok b' →
        Sound b' ∧ Tallied b' :=
      fun e b b' he hb hstep => ⟨hb.1.step hstep he, hb.2.step hb.1 hstep⟩
    exact (Transition.System.exec_invariant_of_forall hstep (hown.own hes)
      ⟨hσ.sound, hσ.tallied⟩ hexec).2
  · exact hσ.index_of_step h (inLoop_of_step h hloop) p

theorem Initial.counted (h : σ.Initial) (hnew : σ.Newborn) (h1 : σ.count = 1) : σ.Counted := by
  refine ⟨h.kept, h1, fun k => ?_, fun _ p => ?_⟩
  · rw [OS.forksOf, OS.reapsOf, OS.kidsOf, h.kids]
    simp [show σ.books.os.trace = [] from h.trace]
  · have hidx : (σ.sched.prog p).seqIdx = 0 := congrArg Life.seqIdx (hnew 0 p)
    rw [hidx, OS.reapsOf, h.trace, List.countP_nil, Nat.zero_mod]

/-- The commands that the processes of a program were started with, one for each. -/
def launches (p : ProgPtr) (σ : Process) (_ : Label) (σ' : Process) : List Str :=
  List.replicate (σ'.os.forksOf (0, p) - σ.os.forksOf (0, p)) (σ'.sched.prog p).cmd

/-- The process that a step starts without a `maxruntime` limit has the command of its number. -/
theorem Counted.launches_eq (hσ : σ.Counted) (h : machine.step l σ = .ok σ') {p : ProgPtr}
    (hlim : (σ.sched.prog p).limits.maxruntime = -1) :
    σ.os.forksOf (0, p) ≤ σ'.os.forksOf (0, p) ∧ launches p σ l σ' =
      (List.range' (σ.os.forksOf (0, p)) (σ'.os.forksOf (0, p) - σ.os.forksOf (0, p))).map
        fun i => (σ.sched.prog p).seq.getD (i % (σ.sched.prog p).seq.length) [] := by
  unfold launches
  rcases hσ.forks_of_step h p with hsame | ⟨hone, hloop, hpid, hcmd⟩
  · rw [hsame]
    simp
  · have hσ' := hσ.step h
    have hf := ((hσ.frame_of_step h).scheduler 0).prog p
    have hlim' : σ'.books.limited (0, p) = false := by
      refine decide_eq_false (not_not.2 ?_)
      exact (congrArg Limits.maxruntime hf.limits).trans hlim
    have hkid := hσ'.sound.kidsOf_eq_one hlim' hpid
    have htally := hσ'.tallied (0, p)
    rw [hkid] at htally
    have hnumber : σ'.os.reapsOf (0, p) = σ.os.forksOf (0, p) := by
      have : σ'.os.forksOf (0, p) = σ'.os.reapsOf (0, p) + 1 := htally
      omega
    have hidx := hσ.index_of_step h hloop p
    rw [hnumber] at hidx
    have hcmd' : (σ'.sched.prog p).seq[(σ'.sched.prog p).seqIdx]? =
      some (σ'.sched.prog p).cmd := hcmd
    rw [hidx, hf.seq] at hcmd'
    rw [hone, Nat.add_sub_cancel_left]
    refine ⟨Nat.le_succ _, ?_⟩
    simp [List.getD_eq_getElem?_getD, hcmd']

/-- In every state of the main loop a program has gone one command further for each of its children
that was reaped; every process starts with the command its program is at; and without `maxruntime`
the processes of a program have the commands of its sequence in turn. -/
theorem sequences_cycle {ls : List Label} (h₀ : σ₀.Initial) (hnew : σ₀.Newborn)
    (h1 : σ₀.count = 1) {p : ProgPtr} (hn : 1 ≤ (σ₀.sched.prog p).seq.length)
    (h : machine.exec ls σ₀ = .ok σ) :
    ((σ.thread 0).inLoop → (σ.sched.prog p).seqIdx =
      σ.os.reapsOf (0, p) % (σ₀.sched.prog p).seq.length) ∧
    machine.Along (fun σ _ σ' => σ'.os.forksOf (0, p) ≠ σ.os.forksOf (0, p) →
      (σ₀.sched.prog p).seq[(σ'.sched.prog p).seqIdx]? = some (σ'.sched.prog p).cmd) ls σ₀ ∧
    ((σ₀.sched.prog p).limits.maxruntime = -1 → ∀ i < σ.os.forksOf (0, p),
      (machine.record (launches p) ls σ₀)[i]? =
        (σ₀.sched.prog p).seq[i % (σ₀.sched.prog p).seq.length]?) := by
  have hI : ∀ l τ τ', (τ.Counted ∧ (σ₀.sched.prog p).Frame (τ.sched.prog p)) →
      machine.step l τ = .ok τ' → τ'.Counted ∧ (σ₀.sched.prog p).Frame (τ'.sched.prog p) :=
    fun l τ τ' hτ hl => ⟨hτ.1.step hl,
      hτ.2.trans (((hτ.1.frame_of_step hl).scheduler 0).prog p)⟩
  have hI₀ : σ₀.Counted ∧ (σ₀.sched.prog p).Frame (σ₀.sched.prog p) :=
    ⟨h₀.counted hnew h1, .refl _⟩
  obtain ⟨hσ, hframe⟩ := Transition.System.exec_invariant hI hI₀ h
  refine ⟨fun hloop => ?_, ?_, fun hlim i hi => ?_⟩
  · rw [hσ.index hloop p, hframe.seq]
  · refine Transition.System.along_of_invariant (fun l τ τ' hτ hl hne => ?_) hI hI₀
    rcases hτ.1.forks_of_step hl p with hsame | ⟨-, -, -, hcmd⟩
    · exact absurd hsame hne
    · have hf := (hI l τ τ' hτ hl).2.seq
      rw [← hf]
      exact hcmd
  · have hrec := (Transition.System.record_eq_map (c := fun τ : Process => τ.os.forksOf (0, p))
      (g := fun i => (σ₀.sched.prog p).seq.getD (i % (σ₀.sched.prog p).seq.length) []) hI
      (fun l τ τ' hτ hl => by
        have hlaunch := hτ.1.launches_eq hl (p := p)
          ((congrArg Limits.maxruntime hτ.2.limits).trans hlim)
        rwa [hτ.2.seq] at hlaunch) hI₀ h).2
    have hzero : σ₀.os.forksOf (0, p) = 0 := by simp [OS.forksOf, h₀.trace]
    have hlt : i % (σ₀.sched.prog p).seq.length < (σ₀.sched.prog p).seq.length :=
      Nat.mod_lt _ hn
    rw [hrec, hzero]
    simp [List.getD_eq_getElem?_getD, hi, hlt]

/-- One program with two commands, started at once. -/
def twoCommands : SchedulerConfig where
  programs := [{ name := str "job", seq := [str "/bin/one", str "/bin/two"] }]
  init := [(.runProg, 0, 0)]

/-- The program is started, its first process ends, and the next pass starts it again. -/
def inTurn : List Label :=
  List.replicate 6 (.thread 0 fun _ => {}) ++ [.dies 1 0] ++ List.replicate 5 (.thread 0 fun _ => {})

theorem twoCommands_initial : (configured [twoCommands]).Initial :=
  configured_initial (List.forall_mem_singleton.2 ⟨by simp [twoCommands], by simp [twoCommands]⟩)

theorem twoCommands_newborn : (configured [twoCommands]).Newborn :=
  configured_newborn (List.forall_mem_singleton.2 (by simp [twoCommands, Program.life]))

theorem sequences_cycle_twoCommands : ∃ σ,
    machine.exec inTurn (configured [twoCommands]) = .ok σ ∧ σ.os.forksOf (0, 0) = 2 ∧
    (σ.sched.prog 0).seqIdx = σ.os.reapsOf (0, 0) % 2 ∧
    (machine.record (launches 0) inTurn (configured [twoCommands]))[1]? =
      some (str "/bin/two") := by
  obtain ⟨σ, hσ, hforks, hloop⟩ : ∃ σ, machine.exec inTurn (configured [twoCommands]) = .ok σ ∧
      σ.os.forksOf (0, 0) = 2 ∧ (σ.thread 0).inLoop := ⟨_, rfl, rfl, rfl⟩
  have hn : 1 ≤ ((configured [twoCommands]).sched.prog 0).seq.length := by decide
  obtain ⟨hidx, -, hturn⟩ :=
    sequences_cycle twoCommands_initial twoCommands_newborn rfl hn hσ
  exact ⟨σ, hσ, hforks, hidx hloop, hturn rfl 1 (by omega)⟩

end Process

end Peter
