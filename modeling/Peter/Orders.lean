import Peter.Actions
import Peter.Queue
import Peter.Sequences

/-!
# Starts that `what_next` orders

How one step changes the number of start units that wait for a program (`Schedule.Uses`), and how
many starts of its program `what_next` makes or queues (`World.Budget`).  While `starts` is not
above the restart limit it does the same as without one (`whatNext_unrestricted`).
-/

namespace Peter

/-! ## Start units -/

/-- The unit starts program `p`, and its address is one of `own`. -/
def WorkUnit.starts (own : ℕ → Bool) (p : ProgPtr) (wu : WorkUnit) : Bool :=
  own wu.addr && decide (wu.wType = .runProg ∧ wu.program = some p)

namespace Schedule

variable {own : ℕ → Bool} {p : ProgPtr} {sch sch' sch'' : Schedule}

/-- How many start units of `p` wait in the vector. -/
def startsPending (own : ℕ → Bool) (p : ProgPtr) (sch : Schedule) : ℕ :=
  sch.units.countP (WorkUnit.starts own p)

/-- How many start units of `p` were added. -/
def startsAdded (own : ℕ → Bool) (p : ProgPtr) (sch : Schedule) : ℕ :=
  sch.added.countP (WorkUnit.starts own p)

/-- Of the start units of `p` that waited or were added, at least `k` are used up. -/
def Uses (own : ℕ → Bool) (p : ProgPtr) (k : ℕ) (sch sch' : Schedule) : Prop :=
  sch'.startsPending own p + k + sch.startsAdded own p ≤
    sch.startsPending own p + sch'.startsAdded own p

theorem Uses.trans {k m : ℕ} (h : Uses own p k sch sch') (h' : Uses own p m sch' sch'') :
    Uses own p (k + m) sch sch'' := by
  unfold Uses at h h' ⊢
  omega

theorem Uses.mono {k m : ℕ} (hle : m ≤ k) (h : Uses own p k sch sch') : Uses own p m sch sch' := by
  unfold Uses at h ⊢
  omega

theorem Uses.of_eq (hu : sch'.units = sch.units) (ha : sch'.added = sch.added) :
    Uses own p 0 sch sch' := by
  rw [Uses, startsPending, startsPending, startsAdded, startsAdded, hu, ha]
  omega

theorem uses_pushBack (sch : Schedule) (wu : WorkUnit) : Uses own p 0 sch (sch.pushBack wu) := by
  simp only [Uses, startsPending, startsAdded, Schedule.pushBack, List.countP_append]
  omega

theorem Grows.uses (h : sch.Grows sch') : Uses own p 0 sch sch' := by
  induction h with
  | refl => exact Uses.of_eq rfl rfl
  | push _ _ ih => exact ih.trans (uses_pushBack ..)

theorem uses_markUsed {pos : ℕ} {wu : WorkUnit} (hwu : sch.units[pos]? = some wu) (now : ℤ) :
    Uses own p (if wu.starts own p then 1 else 0) sch (sch.markUsed pos wu now) := by
  obtain ⟨hlt, hget⟩ := List.getElem?_eq_some_iff.1 hwu
  have hperm : sch.units.countP (WorkUnit.starts own p) =
      (sch.units.set pos { wu with wType := .notinit }).countP (WorkUnit.starts own p) +
        if wu.starts own p then 1 else 0 := by
    have hle : (if wu.starts own p then 1 else 0) ≤ sch.units.countP (WorkUnit.starts own p) := by
      split_ifs with hs
      · exact List.countP_pos_iff.2 ⟨wu, List.mem_of_getElem? hwu, hs⟩
      · omega
    have hused : WorkUnit.starts own p { wu with wType := .notinit } = false := by
      simp [WorkUnit.starts]
    rw [List.countP_set hlt, hget, hused]
    simp only [Bool.false_eq_true, if_false, Nat.add_zero]
    omega
  have hadded : (sch.markUsed pos wu now).startsAdded own p = sch.startsAdded own p := rfl
  have hpending : (sch.markUsed pos wu now).startsPending own p =
      (sch.units.set pos { wu with wType := .notinit }).countP (WorkUnit.starts own p) := rfl
  rw [Uses, hadded, hpending, startsPending, hperm]

theorem uses_eraseUsed (sch : Schedule) :
    Uses own p 0 sch { sch with units := eraseUsed sch.units } := by
  have hle : (eraseUsed sch.units).countP (WorkUnit.starts own p) ≤
      sch.units.countP (WorkUnit.starts own p) := by
    rw [eraseUsed_eq_filter]
    exact List.filter_sublist.countP_le
  simp only [Uses, startsPending, startsAdded]
  omega

end Schedule

open Schedule

namespace Thread

variable {own : ℕ → Bool} {p : ProgPtr} {t t' : Thread} {os os' : OS} {e : Env} {env : ℕ → Env}

/-- A unit that the first pass takes up is used. -/
theorem Marked.uses {sch : Schedule} {now : ℤ} {wui : Iter} {wu : WorkUnit}
    (hsch : Uses own p 0 t.s.schedule sch) (hwu : sch.units[wui.pos]? = some wu)
    (h : t.Marked sch now wui wu t') :
    Uses own p (if wu.starts own p then 1 else 0) t.s.schedule t'.s.schedule := by
  have huses := hsch.trans (uses_markUsed hwu now)
  rw [Nat.zero_add] at huses
  rwa [h.2.2]

theorem Marked.uses_queue {wu wu' : WorkUnit} {now : ℤ} {wui : Iter}
    (h : t.Marked (t.s.schedule.pushBack wu') now wui wu t') :
    Uses own p (if wu.starts own p then 1 else 0) t.s.schedule t'.s.schedule := by
  refine Marked.uses (uses_pushBack _ wu') ?_ h
  rw [Schedule.pushBack, List.getElem?_append_left (List.getElem?_eq_some_iff.1 h.1).1]
  exact h.1

/-- No step loses count of the start units. -/
theorem Turn.uses (h : t.Turn e os t') : Uses own p 0 t.s.schedule t'.s.schedule := by
  cases h with
  | enter _ _ _ hs =>
    rw [hs]
    exact Uses.of_eq rfl rfl
  | skip _ _ _ _ _ hs =>
    rw [hs]
    exact Uses.of_eq rfl rfl
  | mark _ _ _ _ hs => exact (Marked.uses (Uses.of_eq rfl rfl) hs.1 hs).mono (Nat.zero_le _)
  | queue _ _ _ _ hs => exact hs.uses_queue.mono (Nat.zero_le _)
  | erase _ _ _ _ hs =>
    rw [hs]
    exact uses_eraseUsed _
  | grow _ _ _ hs => exact hs.uses

/-- The step at a start unit of `p` uses it. -/
theorem Turn.uses_start (h : t.Turn e os t') (hat : t.AtStart p)
    (hown : ∀ now wui wu, t.pc = .firstPass now wui → t.s.schedule.units[wui.pos]? = some wu →
      own wu.addr) : Uses own p 1 t.s.schedule t'.s.schedule := by
  obtain ⟨now, wui, wu, hpc, hwu, hty, hdue, hp⟩ := hat
  have hm : t.marking = some (now, wui) := by simp [marking, hpc]
  have hstarts : wu.starts own p = true := by
    simp [WorkUnit.starts, hown now wui wu hpc hwu, hty, hp]
  have hmark : ∀ {sch now' wui' wu'}, t.marking = some (now', wui') →
      t.Marked sch now' wui' wu' t' →
      Uses own p (if wu'.starts own p then 1 else 0) t.s.schedule t'.s.schedule →
      Uses own p 1 t.s.schedule t'.s.schedule := by
    intro sch now' wui' wu' hm' hs huses
    cases hm.symm.trans hm'
    cases hwu.symm.trans hs.1
    rwa [hstarts, if_pos rfl] at huses
  cases h with
  | enter hno => simp [hm] at hno
  | skip hm' _ _ hwu' hnot _ =>
    cases hm.symm.trans hm'
    cases hwu.symm.trans hwu'
    exact absurd (show wu.Due now by simp only [WorkUnit.Due, hty]; omega) hnot
  | mark hm' _ _ _ hs => exact hmark hm' hs (Marked.uses (Uses.of_eq rfl rfl) hs.1 hs)
  | queue hm' _ _ _ hs => exact hmark hm' hs hs.uses_queue
  | erase hm' _ _ hend _ =>
    cases hm.symm.trans hm'
    rw [hwu] at hend
    cases hend
  | grow hno => simp [hm] at hno

end Thread

/-! ## What `what_next` starts -/

namespace World

variable {own : ℕ → Bool} {w w' w'' : World} {p : ProgPtr} {e : Env} {env : ℕ → Env} {res sig : ℤ}
  {lim : Bool} {a : Action}

/-- The processes of `p` and the start units added for it. -/
def startsTotal (own : ℕ → Bool) (p : ProgPtr) (w : World) : ℕ :=
  (w.prog p).starts + w.s.schedule.startsAdded own p

/-- The call starts `p`, or queues starts of it, `k` times at most. -/
structure Budget (own : ℕ → Bool) (p : ProgPtr) (k : ℕ) (w w' : World) : Prop where
  frame : w.s.Frame w'.s
  seqIdx : (w'.prog p).seqIdx = (w.prog p).seqIdx
  kids : (w'.prog p).starts + w.os.kidsOf (w.s.self, p) =
    (w.prog p).starts + w'.os.kidsOf (w.s.self, p)
  starts_le : (w.prog p).starts ≤ (w'.prog p).starts
  added_le : w.s.schedule.startsAdded own p ≤ w'.s.schedule.startsAdded own p
  total_le : w'.startsTotal own p ≤ w.startsTotal own p + k

theorem Budget.trans {k m : ℕ} (h : Budget own p k w w') (h' : Budget own p m w' w'') :
    Budget own p (k + m) w w'' where
  frame := h.frame.trans h'.frame
  seqIdx := h'.seqIdx.trans h.seqIdx
  kids := by
    have h₁ := h.kids
    have h₂ := h'.kids
    rw [h.frame.self] at h₂
    omega
  starts_le := h.starts_le.trans h'.starts_le
  added_le := h.added_le.trans h'.added_le
  total_le := by
    have h₁ := h.total_le
    have h₂ := h'.total_le
    omega

theorem Budget.mono {k m : ℕ} (hle : k ≤ m) (h : Budget own p k w w') : Budget own p m w w' :=
  { h with total_le := h.total_le.trans (Nat.add_le_add_left hle _) }

/-- A call that starts nothing and queues `k` starts. -/
theorem Still.budget {k : ℕ} (h : w.Still w')
    (hadded : w'.s.schedule.startsAdded own p = w.s.schedule.startsAdded own p + k) :
    Budget own p k w w' where
  frame := h.frame
  seqIdx := h.seqIdx p
  kids := by rw [h.starts, h.os]
  starts_le := (h.starts p).ge
  added_le := by omega
  total_le := by
    rw [World.startsTotal, World.startsTotal, h.starts, hadded]
    omega

theorem Starts.starts (h : w.Starts p e w') (q : ProgPtr) :
    (w'.prog q).starts = (w.prog q).starts + if q = p then 1 else 0 := by
  obtain ⟨hint, ht⟩ := h.turns
  by_cases hq : q = p
  · rw [hq, if_pos rfl]
    exact congrArg Life.starts ht.self
  · rw [if_neg hq]
    exact congrArg Life.starts (ht.other q hq)

theorem Starts.kidsOf (h : w.Starts p e w') (q : ProgPtr) :
    w'.os.kidsOf (w.s.self, q) = w.os.kidsOf (w.s.self, q) + if q = p then 1 else 0 := by
  obtain ⟨hint, ht⟩ := h.turns
  rw [ht.os, OS.kidsOf, OS.kidsOf, OS.fork_kids, List.countP_append]
  simp [eq_comm]

theorem Starts.budget (h : w.Starts p e w')
    (hadded : w'.s.schedule.added = w.s.schedule.added) : Budget own p 1 w w' := by
  have hstarts := h.starts p
  have hkids := h.kidsOf p
  have hcount : w'.s.schedule.startsAdded own p = w.s.schedule.startsAdded own p :=
    congrArg (List.countP _) hadded
  rw [if_pos rfl] at hstarts hkids
  constructor
  case frame => exact h.turns.elim fun _ ht => ht.frame
  case seqIdx => exact h.seqIdx p
  case kids => omega
  case starts_le => omega
  case added_le => omega
  case total_le =>
    rw [World.startsTotal, World.startsTotal, hstarts, hcount]
    omega

theorem Again.kidsOf (h : Again env p w w') {q : ProgPtr} (hq : q ≠ p) :
    w'.os.kidsOf (w.s.self, q) = w.os.kidsOf (w.s.self, q) := by
  rcases h with h | ⟨_, h⟩
  · rw [h.os]
  · rw [h.kidsOf, if_neg hq, Nat.add_zero]

/-- A call that queues one unit orders a start when that is a start unit of the program. -/
theorem Still.budget_addWorkunit (h : w.Still w')
    (hadded : w'.s.schedule.added = w.s.schedule.added) (ty : WType) (t : ℤ) (q : Option ProgPtr) :
    Budget own p (if ty = .runProg ∧ q = some p then 1 else 0) w (w'.addWorkunit ty t q) := by
  have hcount : (w'.addWorkunit ty t q).s.schedule.startsAdded own p =
      w.s.schedule.startsAdded own p +
        if WorkUnit.starts own p ⟨w'.s.schedule.nextAddr, ty, t, q⟩ then 1 else 0 := by
    simp only [startsAdded, addWorkunit, Schedule.pushBack, hadded, List.countP_append,
      List.countP_cons, List.countP_nil, Nat.zero_add]
  refine ((h.trans (still_addWorkunit w' ty t q)).budget hcount).mono ?_
  by_cases hstart : ty = .runProg ∧ q = some p
  · rw [if_pos hstart]
    split_ifs <;> omega
  · simp [WorkUnit.starts, hstart]

theorem budget_run (h : w.run e p = .ok w') : Budget own p 1 w w' := by
  cases ran_of_run h with
  | running => exact ((Still.refl w).budget (k := 0) rfl).mono (Nat.zero_le 1)
  | missing hpid =>
    exact ((still_setCmd hpid _).budget_addWorkunit rfl .exit e.now (some p)).mono (Nat.zero_le 1)
  | refused hpid => exact ((still_setCmd hpid _).budget (k := 0) rfl).mono (Nat.zero_le 1)
  | launched hpid hok hcmd => exact (starts_launched hpid hok hcmd).budget rfl

/-- An action orders a start when it is for the program itself and no limit is reached. -/
theorem budget_doAction (h : w.doAction e p res sig lim a = .ok w') :
    Budget own p (if ¬lim ∧ w.SelfStart p a then 1 else 0) w w' := by
  cases acted_of_doAction h with
  | direct hty hlim hq _ hrun =>
    rw [if_pos ⟨by simp [hlim], hty, hq⟩]
    have hset : Budget own p 0 w (w.setAttribs p p res sig) :=
      (still_setAttribs w p p res sig).budget rfl
    exact (hset.trans (budget_run hrun)).mono (Nat.zero_add 1).le
  | @queued ty t hunit =>
    refine ((still_setAttribs w p (w.target p a) res sig).budget_addWorkunit rfl ty t
      (some (w.target p a))).mono ?_
    by_cases hstart : ty = .runProg ∧ some (w.target p a) = some p
    · obtain ⟨rfl, hq⟩ := hstart
      have hq : w.target p a = p := Option.some.inj hq
      rw [hq] at hunit
      have hno : ¬lim ∧ a.actionType = .exec := by
        unfold Action.unit at hunit
        split at hunit <;> simp_all
      rw [if_pos ⟨rfl, congrArg some hq⟩, if_pos ⟨hno.1, hno.2, hq⟩]
    · rw [if_neg hstart]
      exact Nat.zero_le _
  | passed =>
    exact ((still_setAttribs w p (w.target p a) res sig).budget (k := 0) rfl).mono (Nat.zero_le _)

theorem selfStart_of_frame (h : w.s.Frame w'.s) (a : Action) :
    w'.SelfStart p a ↔ w.SelfStart p a := by
  rw [SelfStart, SelfStart, target, target, h.getProgramByName]

/-- So a list of actions orders as many starts as it has actions for the program itself. -/
theorem budget_doActions {al : List Action} (h : w.doActions p res sig lim al env = .ok w') :
    Budget own p (if lim then 0 else al.countP fun a => w.SelfStart p a) w w' := by
  induction al generalizing env w with
  | nil =>
    cases h
    exact ((Still.refl _).budget (k := 0) rfl).mono (Nat.zero_le _)
  | cons a al ih =>
    rw [doActions] at h
    split at h
    · next w₁ hw₁ =>
      have hfirst : Budget own p _ w w₁ := budget_doAction hw₁
      refine (hfirst.trans (ih h)).mono ?_
      simp only [selfStart_of_frame hfirst.frame]
      cases lim with
      | true => simp
      | false =>
        simp only [Bool.false_eq_true, not_false_eq_true, true_and, if_false, List.countP_cons,
          decide_eq_true_eq]
        omega
    · cases h

theorem checkLimits_starts (hlim : (w.checkLimits e p).1 = false)
    (hL : 0 ≤ (w.prog p).limits.starts) :
    ((w.prog p).starts : ℤ) ≤ (w.prog p).limits.starts := by
  simp only [checkLimits, Bool.or_eq_false_iff, decide_eq_false_iff_not, not_and] at hlim
  have := hlim.2 (by omega)
  omega

/-- Where the program has at most one action for itself in each list, `what_next` orders one start
at most, and then `starts` is within the limit and the next place in the sequence. -/
theorem budget_whatNext (own : ℕ → Bool) (hL : 0 ≤ (w.prog p).limits.starts)
    (hself : ∀ al, (w.prog p).getActions res sig = some al →
      al.countP (fun a => w.SelfStart p a) ≤ 1)
    (hstop : (w.prog p).stopMode = 0) (hidx : (w.prog p).seqIdx < (w.prog p).seq.length)
    (hstarts : ((w.prog p).starts : ℤ) ≤ (w.prog p).limits.starts + (w.prog p).seqIdx + 1)
    (h : w.whatNext env res sig p = .ok w') : ∃ k ≤ 1, Budget own p k (w.incSeqIdx p) w' ∧
      (k = 0 ∨ ((w.prog p).starts : ℤ) ≤
        (w.prog p).limits.starts + ((w.prog p).seqIdx + 1) % (w.prog p).seq.length) := by
  cases followed_of_whatNext h with
  | stopped hstop' => exact absurd (hstop'.symm.trans hstop) (by decide)
  | next _ hlen hmid =>
    have hqueue : Budget own p _ (w.incSeqIdx p) _ :=
      (Still.refl (w.incSeqIdx p)).budget_addWorkunit rfl .runProg (env 0).now (some p)
    refine ⟨1, le_rfl, hqueue.mono (by split_ifs <;> omega), .inr ?_⟩
    rw [Int.emod_eq_of_lt (by omega) (by omega)]
    omega
  | none => exact ⟨0, Nat.zero_le 1, (Still.refl _).budget rfl, .inl rfl⟩
  | @actions al _ _ hlen hlast hal hdo =>
    have hcheck : Budget own p 0 (w.incSeqIdx p) _ :=
      (still_checkLimits (w.incSeqIdx p) (env 0) p).budget
        (congrArg (List.countP _) (checkLimits_added ..))
    have hacts := hcheck.trans (budget_doActions hdo)
    cases hlim : ((w.incSeqIdx p).checkLimits (env 0) p).1 with
    | true =>
      rw [hlim, if_pos rfl] at hacts
      exact ⟨0, Nat.zero_le 1, hacts, .inl rfl⟩
    | false =>
      have hprog : (w.incSeqIdx p).prog p = { w.prog p with
          seqIdx := ((w.prog p).seqIdx + 1) % (w.prog p).seq.length } := modifyProg_prog_self ..
      have hframe := (quiet_incSeqIdx w p).frame.trans (quiet_checkLimits _ (env 0) p).frame
      simp only [hlim, Bool.false_eq_true, if_false, selfStart_of_frame hframe] at hacts
      have hle : ((w.prog p).starts : ℤ) ≤ (w.prog p).limits.starts := by
        have hle := checkLimits_starts hlim (by rw [hprog]; exact hL)
        rw [hprog] at hle
        exact hle
      refine ⟨1, le_rfl, hacts.mono ?_, .inr ?_⟩
      · rw [Nat.zero_add]
        exact hself al hal
      · rw [show ((w.prog p).seqIdx + 1 : ℤ) = (w.prog p).seq.length by omega, Int.emod_self]
        omega

end World

namespace Thread

variable {p : ProgPtr} {t t' : Thread} {os os' : OS} {env : ℕ → Env} {c : Child}

/-- The main loop reaps a process of `p`, and `what_next` of `p` follows. -/
def Follows (t : Thread) (e : Env) (os : OS) (p : ProgPtr) : Prop :=
  t.inLoop ∧ ∃ c, t.reaps e os = some c ∧ t.s.running c.pid = some p

theorem whatNext_of_step (h : t.step env os = .ok (t', os')) {now pid : ℤ} {pri : ℕ}
    (hpc : t.pc = .poll now pri pid) (hreap : t.reaps (env 0) os = some c)
    (hp : t.s.running c.pid = some p) : ∃ env' res sig w₁ w₂,
      World.Turns p (Life.ended now) (os.reap t.s.self c (some p) (t.s.prog p).pid) 0 ⟨t.s, os⟩ w₁ ∧
      w₁.s.schedule = t.s.schedule ∧ World.whatNext env' res sig p w₁ = .ok w₂ ∧
      (⟨t'.s, os'⟩ : World) = w₂.incChanged := by
  rcases death_or_bury hreap hp h with ⟨now', pri', pid', hpc', hdeath⟩ | ⟨hloop, -⟩
  · cases hpc.symm.trans hpc'
    set w₀ : World := ⟨t.s, os.reap t.s.self c (some p) (t.s.prog p).pid⟩
    have hbury : World.Turns p (Life.ended now) w₀.os 0 w₀
        ((w₀.bury c p now).addDeathEvent now p (c.status.getD 0)) :=
      (World.turns_bury w₀ c p now).still (World.still_addDeathEvent ..)
    obtain ⟨w₂, hnext, hw⟩ := World.handleDeath_eq_ok hdeath
    exact ⟨_, _, _, _, w₂, hbury.with_os os, World.addDeathEvent_schedule .., hnext, hw⟩
  · simp [inLoop, hpc] at hloop

end Thread

/-! ## Below the limit -/

/-- The restart limit of the program taken off. -/
def Program.unrestricted (prog : Program) : Program :=
  { prog with limits := { prog.limits with starts := -1 } }

namespace World

/-- The state with the restart limit of program `p` off. -/
def unrestricted (p : ProgPtr) (w : World) : World := w.modifyProg p Program.unrestricted

/-- What does not look at the limits does the same without it. -/
theorem modifyProg_unrestricted (w : World) (p q : ProgPtr) {f : Program → Program}
    (hf : ∀ prog, f prog.unrestricted = (f prog).unrestricted) :
    (w.unrestricted p).modifyProg q f = (w.modifyProg q f).unrestricted p := by
  unfold unrestricted
  by_cases hq : q = p
  · subst hq
    simp [modifyProg, hf]
  · simp [modifyProg, Function.update_of_ne hq, Function.update_of_ne (Ne.symm hq),
      Function.update_comm (Ne.symm hq)]

theorem prog_unrestricted (w : World) (p : ProgPtr) :
    (w.unrestricted p).prog p = (w.prog p).unrestricted := modifyProg_prog_self ..

theorem run_unrestricted (w : World) (e : Env) (p : ProgPtr) :
    (w.unrestricted p).run e p = (w.run e p).map (unrestricted p) := by
  have hsubst : (w.unrestricted p).substitute e p = (w.substitute e p).unrestricted p :=
    w.modifyProg_unrestricted p p fun _ => rfl
  unfold run
  rw [hsubst, prog_unrestricted]
  generalize w.substitute e p = w₁
  have hpid : (w₁.unrestricted p).setPid p 0 = (w₁.setPid p 0).unrestricted p :=
    w₁.modifyProg_unrestricted p p fun _ => rfl
  have hcmd : ∀ cmd, (w₁.unrestricted p).modifyProg p (fun prog => { prog with cmd }) =
      (w₁.modifyProg p fun prog => { prog with cmd }).unrestricted p :=
    fun cmd => w₁.modifyProg_unrestricted p p fun _ => rfl
  simp only [hcmd, prog_unrestricted, Program.unrestricted]
  split_ifs
  · rfl
  · rw [hpid]
    rfl
  cases hseq : (w₁.prog p).seq[(w₁.prog p).seqIdx]? with
  | none => rfl
  | some cmd =>
    dsimp only
    generalize w₁.modifyProg p (fun prog => { prog with cmd }) = w₂
    have hpid : (w₂.unrestricted p).setPid p 0 = (w₂.setPid p 0).unrestricted p :=
      w₂.modifyProg_unrestricted p p fun _ => rfl
    have hforked : ∀ hint, (w₂.unrestricted p).forked e p hint =
        (w₂.forked e p hint).unrestricted p := by
      intro hint
      have hfork := World.modifyProg_unrestricted
        { w₂ with os := (w₂.os.fork w₂.s.self p hint).2 } p p (f := fun prog => { prog with
          pid := (w₂.os.fork w₂.s.self p hint).1
          tStart := e.utc
          tEnd := 0
          starts := prog.starts + 1 }) fun _ => rfl
      exact congrArg (fun w : World => (w.setRunning (w₂.os.fork w₂.s.self p hint).1
        (some p)).addEvent e.utc .start p (-1)) hfork
    simp only [hpid, hforked]
    split_ifs
    · rfl
    · rfl
    · rfl
    · cases e.fork <;> rfl
    · cases e.fork <;> rfl

theorem setAttribs_unrestricted (w : World) (p q : ProgPtr) (res sig : ℤ) :
    (w.unrestricted p).setAttribs p q res sig = (w.setAttribs p q res sig).unrestricted p := by
  have hadd : ∀ (w : World) k v, (w.unrestricted p).addSAttrib q k v =
      (w.addSAttrib q k v).unrestricted p :=
    fun w k v => w.modifyProg_unrestricted p q fun _ => rfl
  unfold setAttribs
  dsimp only
  rw [hadd, hadd, prog_unrestricted, hadd]
  rfl

theorem target_unrestricted (w : World) (p : ProgPtr) (a : Action) :
    (w.unrestricted p).target p a = w.target p a :=
  (alike_modifyProg w p rfl rfl).target p a

theorem doAction_unrestricted (w : World) (e : Env) (p : ProgPtr) (res sig : ℤ) (lim : Bool)
    (a : Action) : (w.unrestricted p).doAction e p res sig lim a =
      (w.doAction e p res sig lim a).map (unrestricted p) := by
  rw [doAction_eq, doAction_eq, target_unrestricted]
  dsimp only
  rw [setAttribs_unrestricted]
  cases a.actionType with
  | exec =>
    dsimp only
    split_ifs
    · rfl
    · exact run_unrestricted ..
    · rfl
  | kill =>
    dsimp only
    split_ifs <;> rfl
  | _ => rfl

theorem doActions_unrestricted (w : World) (p : ProgPtr) (res sig : ℤ) (lim : Bool)
    (al : List Action) (env : ℕ → Env) : (w.unrestricted p).doActions p res sig lim al env =
      (w.doActions p res sig lim al env).map (unrestricted p) := by
  induction al generalizing w env with
  | nil => rfl
  | cons a al ih =>
    rw [doActions, doActions, doAction_unrestricted]
    cases w.doAction (env 0) p res sig lim a with
    | error => rfl
    | ok w₁ => exact ih w₁ _

theorem checkLimits_unrestricted (w : World) (e : Env) (p : ProgPtr)
    (h : ((w.prog p).starts : ℤ) ≤ (w.prog p).limits.starts) :
    (w.unrestricted p).checkLimits e p =
      ((w.checkLimits e p).1, (w.checkLimits e p).2.unrestricted p) := by
  have hno : ¬((w.prog p).limits.starts ≠ -1 ∧
      ((w.prog p).starts : ℤ) > (w.prog p).limits.starts) := fun hn => by omega
  have hno' : ¬((w.prog p).unrestricted.limits.starts ≠ -1 ∧
      ((w.prog p).unrestricted.starts : ℤ) > (w.prog p).unrestricted.limits.starts) :=
    fun hn => hn.1 rfl
  unfold checkLimits
  rw [prog_unrestricted]
  dsimp only
  rw [decide_eq_false hno, decide_eq_false hno']
  by_cases hshort : (w.prog p).limits.minruntime ≠ -1 ∧
    (w.prog p).getRuntime e.utc < (w.prog p).limits.minruntime
  · have hshort' : (w.prog p).unrestricted.limits.minruntime ≠ -1 ∧
      (w.prog p).unrestricted.getRuntime e.utc < (w.prog p).unrestricted.limits.minruntime := hshort
    rw [decide_eq_true hshort, decide_eq_true hshort']
    rfl
  · have hshort' : ¬((w.prog p).unrestricted.limits.minruntime ≠ -1 ∧
      (w.prog p).unrestricted.getRuntime e.utc < (w.prog p).unrestricted.limits.minruntime) := hshort
    rw [decide_eq_false hshort, decide_eq_false hshort']
    rfl

/-- While `starts` is not above its limit, `what_next` does the same as without the limit. -/
theorem whatNext_unrestricted (w : World) (env : ℕ → Env) (res sig : ℤ) (p : ProgPtr)
    (h : ((w.prog p).starts : ℤ) ≤ (w.prog p).limits.starts) :
    (w.unrestricted p).whatNext env res sig p =
      (w.whatNext env res sig p).map (unrestricted p) := by
  have hinc : (w.unrestricted p).incSeqIdx p = (w.incSeqIdx p).unrestricted p :=
    w.modifyProg_unrestricted p p fun _ => rfl
  have hle : (((w.incSeqIdx p).prog p).starts : ℤ) ≤ ((w.incSeqIdx p).prog p).limits.starts := by
    rw [incSeqIdx, modifyProg_prog_self]
    exact h
  have hstop : (w.unrestricted p).modifyProg p (fun prog => { prog with stopMode := 0 }) =
      (w.modifyProg p fun prog => { prog with stopMode := 0 }).unrestricted p :=
    w.modifyProg_unrestricted p p fun _ => rfl
  rw [whatNext_eq, whatNext_eq, prog_unrestricted, hinc, hstop, checkLimits_unrestricted _ _ _ hle]
  show (if (w.prog p).stopMode = 1 then _ else if (w.prog p).seq.length = 0 then _
    else if (w.prog p).seqIdx + 1 ≠ (w.prog p).seq.length then _
    else ((w.prog p).getActions res sig).elim _ _) = _
  split_ifs
  · rfl
  · rfl
  · rfl
  · cases (w.prog p).getActions res sig with
    | none => rfl
    | some al => exact doActions_unrestricted ..

end World

end Peter
