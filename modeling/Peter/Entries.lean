import Peter.Refine

/-!
# The entries of one step

`what_next` starts its program at most once (`World.Restart`), and one step of a scheduler thread
makes one of the lists of entries of `Thread.Shape`.  The shapes also say what the step was about:
a fork in the first pass is for a due start unit, an entry about a dead child is for one `waitpid`
could return.
-/

namespace Peter

/-! ## `what_next` -/

/-- The unit that an action queues itself, when `q` is the program it is for. -/
def Action.unit (now : ℤ) (limitReached : Bool) (p q : ProgPtr) (a : Action) :
    Option (WType × ℤ) :=
  match a.actionType with
  | .exec =>
    if q = p ∧ (limitReached ∨ a.after = 0) then none
    else some (.runProg, toLong (now + a.after))
  | .kill => if q = p then none else some (.endProg, toLong (now + a.after))
  | .exit => some (.exit, now)
  | .nop => none
  | .wait => none

namespace World

variable {w w' w'' : World} {p : ProgPtr}

section Calls

variable {e : Env} {res sig : ℤ}

/-- The program an action is for. -/
def target (w : World) (p : ProgPtr) (a : Action) : ProgPtr := (w.s.getProgramByName a.prog).getD p

/-- The attributes that `what_next` sets before it looks at the type of an action. -/
def setAttribs (w : World) (p q : ProgPtr) (res sig : ℤ) : World :=
  let w := w.addSAttrib q (str "res") (toStr res)
  let w := w.addSAttrib q (str "sig") (toStr sig)
  w.addSAttrib q (str "name") (w.prog p).name

theorem quiet_setAttribs (w : World) (p q : ProgPtr) (res sig : ℤ) :
    w.Quiet (w.setAttribs p q res sig) :=
  ((quiet_addSAttrib ..).trans (quiet_addSAttrib ..)).trans (quiet_addSAttrib ..)

/-- What one action can do. -/
inductive Acted (e : Env) (p : ProgPtr) (res sig : ℤ) (limitReached : Bool) (a : Action)
    (w : World) : World → Prop
  | direct {w' : World} (hty : a.actionType = .exec) (hlim : limitReached = false)
      (hq : w.target p a = p) (hafter : a.after = 0)
      (hrun : (w.setAttribs p p res sig).run e p = .ok w') : Acted e p res sig limitReached a w w'
  | queued {ty : WType} {t : ℤ}
      (hunit : a.unit e.now limitReached p (w.target p a) = some (ty, t)) :
      Acted e p res sig limitReached a w
        ((w.setAttribs p (w.target p a) res sig).addWorkunit ty t (some (w.target p a)))
  | passed (hunit : a.unit e.now limitReached p (w.target p a) = none)
      (hno : ¬(a.actionType = .exec ∧ limitReached = false ∧ w.target p a = p ∧ a.after = 0)) :
      Acted e p res sig limitReached a w (w.setAttribs p (w.target p a) res sig)

theorem doAction_eq (w : World) (e : Env) (p : ProgPtr) (res sig : ℤ) (limitReached : Bool)
    (a : Action) : w.doAction e p res sig limitReached a =
      let q := w.target p a
      let w := w.setAttribs p q res sig
      match a.actionType with
      | .exec =>
        if limitReached ∧ q = p then .ok w
        else if q = p ∧ a.after = 0 then w.run e p
        else .ok (w.addWorkunit .runProg (toLong (e.now + a.after)) (some q))
      | .kill =>
        if q ≠ p then .ok (w.addWorkunit .endProg (toLong (e.now + a.after)) (some q)) else .ok w
      | .exit => .ok (w.addWorkunit .exit e.now (some q))
      | .nop => .ok w
      | .wait => .ok w := rfl

theorem acted_of_doAction {limitReached : Bool} {a : Action}
    (h : w.doAction e p res sig limitReached a = .ok w') :
    Acted e p res sig limitReached a w w' := by
  rw [doAction_eq] at h
  dsimp only at h
  cases hty : a.actionType <;> simp only [hty] at h
  case exec =>
    split_ifs at h with hlim hdirect
    · cases h
      refine .passed ?_ fun hd => by simp [hd.2.1] at hlim
      simp [Action.unit, hty, hlim]
    · rw [hdirect.1] at h
      refine .direct hty ?_ hdirect.1 hdirect.2 h
      cases limitReached with
      | false => rfl
      | true => exact absurd ⟨rfl, hdirect.1⟩ hlim
    · cases h
      refine .queued ?_
      rw [Action.unit, hty]
      refine if_neg ?_
      rintro ⟨hq, hl | hafter⟩
      · exact hlim ⟨hl, hq⟩
      · exact hdirect ⟨hq, hafter⟩
  case kill =>
    split_ifs at h with hq
    · cases h
      exact .queued (by simp [Action.unit, hty, hq])
    · cases h
      exact .passed (by simp [Action.unit, hty, not_not.1 hq]) (by simp [hty])
  case exit =>
    cases h
    exact .queued (by simp [Action.unit, hty])
  all_goals
    cases h
    exact .passed (by simp [Action.unit, hty]) (by simp [hty])

/-- `inc_seq_idx`. -/
def incSeqIdx (w : World) (p : ProgPtr) : World :=
  w.modifyProg p fun prog => { prog with seqIdx := (prog.seqIdx + 1) % prog.seq.length }

theorem quiet_incSeqIdx (w : World) (p : ProgPtr) : w.Quiet (w.incSeqIdx p) :=
  quiet_modifyProg w p (by constructor <;> simp) rfl rfl

theorem whatNext_eq (w : World) (env : ℕ → Env) (res sig : ℤ) (p : ProgPtr) :
    w.whatNext env res sig p =
      if (w.prog p).stopMode = 1 then .ok (w.modifyProg p fun prog => { prog with stopMode := 0 })
      else if (w.prog p).seq.length = 0 then .error .undefined
      else if (w.prog p).seqIdx + 1 ≠ (w.prog p).seq.length then
        .ok ((w.incSeqIdx p).addWorkunit .runProg (env 0).now (some p))
      else ((w.prog p).getActions res sig).elim (.ok (w.incSeqIdx p)) fun al =>
        ((w.incSeqIdx p).checkLimits (env 0) p).2.doActions p res sig
          ((w.incSeqIdx p).checkLimits (env 0) p).1 al fun i => env (i + 1) := by
  have hget : ((w.incSeqIdx p).prog p).getActions res sig = (w.prog p).getActions res sig := by
    rw [incSeqIdx, modifyProg_prog_self]
    rfl
  have hinc : w.modifyProg p (fun _ => { w.prog p with
    seqIdx := ((w.prog p).seqIdx + 1) % (w.prog p).seq.length }) = w.incSeqIdx p := rfl
  unfold whatNext Program.incSeqIdx
  split_ifs with hstop hlen hmid
  · rfl
  · rfl
  · simp [hmid, hinc]
  · dsimp only
    rw [if_neg (by simp [not_not.1 hmid]), hinc, hget]
    cases (w.prog p).getActions res sig with
    | none => rfl
    | some al => rfl

/-- What `what_next` can do. -/
inductive Followed (env : ℕ → Env) (res sig : ℤ) (p : ProgPtr) (w : World) : World → Prop
  | stopped (hstop : (w.prog p).stopMode = 1) :
      Followed env res sig p w (w.modifyProg p fun prog => { prog with stopMode := 0 })
  | next (hstop : (w.prog p).stopMode ≠ 1) (hlen : 0 < (w.prog p).seq.length)
      (hmid : (w.prog p).seqIdx + 1 ≠ (w.prog p).seq.length) :
      Followed env res sig p w ((w.incSeqIdx p).addWorkunit .runProg (env 0).now (some p))
  | none (hstop : (w.prog p).stopMode ≠ 1) (hlen : 0 < (w.prog p).seq.length)
      (hlast : (w.prog p).seqIdx + 1 = (w.prog p).seq.length)
      (hal : (w.prog p).getActions res sig = none) : Followed env res sig p w (w.incSeqIdx p)
  | actions {al : ActionList} {w' : World} (hstop : (w.prog p).stopMode ≠ 1)
      (hlen : 0 < (w.prog p).seq.length)
      (hlast : (w.prog p).seqIdx + 1 = (w.prog p).seq.length)
      (hal : (w.prog p).getActions res sig = some al)
      (hdo : ((w.incSeqIdx p).checkLimits (env 0) p).2.doActions p res sig
        ((w.incSeqIdx p).checkLimits (env 0) p).1 al (fun i => env (i + 1)) = .ok w') :
      Followed env res sig p w w'

theorem followed_of_whatNext {env : ℕ → Env} (h : w.whatNext env res sig p = .ok w') :
    Followed env res sig p w w' := by
  rw [whatNext_eq] at h
  split_ifs at h with hstop hlen hmid
  · cases h
    exact .stopped hstop
  · cases h
    exact .next hstop (by omega) hmid
  · have hlast := not_not.1 hmid
    cases hal : (w.prog p).getActions res sig with
    | none =>
      rw [hal] at h
      cases h
      exact .none hstop (by omega) hlast hal
    | some al =>
      rw [hal] at h
      exact .actions hstop (by omega) hlast hal h

end Calls

/-- The program runs at most once, and nothing else that the books keep changes. -/
def Restart (p : ProgPtr) (w w' : World) : Prop :=
  w.Quiet w' ∨ ∃ e hint w₁, w.Quiet w₁ ∧ (w₁.prog p).pid = 0 ∧ (w₁.forked e p hint).Quiet w'

theorem Quiet.restart (h : w.Quiet w') : w.Restart p w' := .inl h

theorem Restart.frame (h : w.Restart p w') : w.s.Frame w'.s := by
  rcases h with h | ⟨e, hint, w₁, h₁, -, h₂⟩
  · exact h.frame
  · exact (h₁.frame.trans (w₁.forked_frame e p hint)).trans h₂.frame

/-- A program that has just been started is not started again. -/
theorem Restart.trans (h : w.Restart p w') (h' : w'.Restart p w'') : w.Restart p w'' := by
  rcases h with h | ⟨e, hint, w₁, h₁, hpid, h₂⟩
  · rcases h' with h' | ⟨e, hint, w₁, h₁, hpid, h₂⟩
    · exact .inl (h.trans h')
    · exact .inr ⟨e, hint, w₁, h.trans h₁, hpid, h₂⟩
  · rcases h' with h' | ⟨e', hint', w₂, h₃, hpid', -⟩
    · exact .inr ⟨e, hint, w₁, h₁, hpid, h₂.trans h'⟩
    · have hzero := (h₃.pid p).symm.trans hpid'
      rw [h₂.pid, forked_pid] at hzero
      exact absurd hzero (w₁.os.freshPid_pos hint).ne'

theorem restart_run {e : Env} (h : w.run e p = .ok w') : w.Restart p w' := by
  rcases run_cases h with ⟨hq, -⟩ | ⟨hpid, -, hint, w₁, -, hq, rfl⟩
  · exact hq.restart
  · exact .inr ⟨e, hint, w₁, hq, (hq.pid p).trans hpid, .refl _⟩

theorem restart_doAction {e : Env} {res sig : ℤ} {limitReached : Bool} {a : Action}
    (h : w.doAction e p res sig limitReached a = .ok w') : w.Restart p w' := by
  cases acted_of_doAction h with
  | direct _ _ _ _ hrun => exact (quiet_setAttribs ..).restart.trans (restart_run hrun)
  | queued => exact ((quiet_setAttribs ..).trans (quiet_addWorkunit ..)).restart
  | passed => exact (quiet_setAttribs ..).restart

theorem restart_doActions {res sig : ℤ} {limitReached : Bool} {al : List Action}
    {env : ℕ → Env} (h : w.doActions p res sig limitReached al env = .ok w') :
    w.Restart p w' := by
  induction al generalizing env w with
  | nil => cases h; exact (Quiet.refl _).restart
  | cons a al ih =>
    rw [doActions] at h
    split at h
    · next w₁ hw₁ => exact (restart_doAction hw₁).trans (ih h)
    · cases h

theorem quiet_checkLimits (w : World) (e : Env) (p : ProgPtr) :
    w.Quiet (w.checkLimits e p).2 := by
  unfold checkLimits
  dsimp only
  split_ifs
  · exact (quiet_addEvent _ _ p 0 (.inr rfl)).trans (quiet_addEvent _ _ p 0 (.inr rfl))
  · exact quiet_addEvent _ _ p 0 (.inr rfl)
  · exact quiet_addEvent _ _ p 0 (.inr rfl)
  · exact .refl w

theorem restart_whatNext {env : ℕ → Env} {res sig : ℤ}
    (h : w.whatNext env res sig p = .ok w') : w.Restart p w' := by
  have hq := w.quiet_incSeqIdx p
  cases followed_of_whatNext h with
  | stopped => exact (quiet_modifyProg w p (by constructor <;> simp) rfl rfl).restart
  | next => exact (hq.trans (quiet_addWorkunit ..)).restart
  | none => exact hq.restart
  | actions _ _ _ _ hdo =>
    exact (hq.trans (quiet_checkLimits ..)).restart.trans (restart_doActions hdo)

/-! ## Signals, limits and deaths -/

theorem sendSignal_frame (w : World) (e : Env) (p : ProgPtr) (sig : ℤ) (cause : Cause) :
    w.s.Frame (w.sendSignal e p sig cause).2.s := by
  unfold sendSignal
  split_ifs <;> exact .refl _

variable (S : ℕ → Scheduler) {i : ℕ}

theorem signal_books (hi : w.s.self = i) (e : Env) (sig : ℤ) (cause : Cause)
    (hpid : (w.prog p).pid ≠ 0) : (w.sendSignal e p sig cause).2.books S i =
      (w.books S i).signal (i, p) sig cause e.killOk := by
  unfold sendSignal
  rw [if_neg hpid, Books.signal, slot_books, hi]
  rfl

end World

end Peter
