import Peter.ExitTable
import Peter.Entries

/-!
# The default exit actions

Without an `actions` element the exception path of `read_config` stores the default actions for
result 0 and signal 0.  Signal 0 stands for all signals, but result 0 only for itself
(`default_restart_iff`).
-/

namespace Peter

/-! ## What is read -/

/-- The limits and tables of a configured program are those of its elements. -/
theorem readProgram_eq_ok {x : XMLNode} {cfg : Program} (h : readProgram x = .ok cfg) :
    readLimits (x.getNamedChild (str "limit")) = .ok cfg.limits ∧
      ∃ t, readActions x {} = .ok t ∧ cfg.exitActions = t.exit.get ∧
        cfg.sgnlActions = t.sgnl.get := by
  unfold readProgram at h
  obtain ⟨name, -, h⟩ := bind_eq_ok h
  obtain ⟨stopSig, -, h⟩ := bind_eq_ok h
  obtain ⟨limits, hlimits, h⟩ := bind_eq_ok h
  obtain ⟨t, ht, h⟩ := bind_eq_ok h
  cases h
  exact ⟨hlimits, t, ht, rfl, rfl⟩

/-- Without an `actions` element there are actions for result 0 and for all signals. -/
theorem getActions_default {x : XMLNode} {cfg : Program} (h : readProgram x = .ok cfg)
    (hactions : x.getNamedChild (str "actions") = none) (res sig : ℤ) :
    cfg.getActions res sig = if sig > 0 ∨ res = 0 then some defaultActions else none := by
  obtain ⟨-, t, ht, hexit, hsgnl⟩ := readProgram_eq_ok h
  have hget : ∀ n, (Table.set (fun _ => none) 0 defaultActions).get n =
      if n = 0 then some defaultActions else none := by
    intro n
    rw [Table.get, Table.set, Function.update_apply]
    split_ifs <;> rfl
  rw [readActions, hactions] at ht
  cases ht
  rw [Program.getActions_eq hexit hsgnl, Tables.getActions_fst]
  dsimp only
  rw [hget, hget, hget]
  by_cases hsig : sig > 0
  · rw [if_pos hsig, if_neg (by omega), if_pos rfl, if_pos (.inl hsig)]
    rfl
  · rw [if_neg hsig]
    simp [hsig]

/-! ## What is done -/

namespace World

variable {w w' : World} {p : ProgPtr} {e : Env}

/-- `run` comes to an end when it may start the program. -/
theorem run_eq_ok (hok : e.startable (w.prog p)) {hint : ℤ} (hfork : e.fork = some hint)
    (hmax : (w.prog p).starts ≠ 2147483647) : ∃ w', w.run e p = .ok w' := by
  have hcmd : (w.prog p).seq[(w.prog p).seqIdx]?.isSome := by
    simp only [Env.startable, Bool.and_eq_true] at hok
    exact hok.1.1.2
  obtain ⟨cmd, hcmd⟩ := Option.isSome_iff_exists.1 hcmd
  have hsub : ((w.substitute e p).prog p).seq[((w.substitute e p).prog p).seqIdx]? = some cmd := by
    simpa [substitute] using hcmd
  have hstarts : ∀ c, (((w.substitute e p).modifyProg p fun prog =>
      { prog with cmd := c }).prog p).starts ≠ 2147483647 := by
    simpa [substitute] using hmax
  unfold run
  simp only [hsub, hfork, if_neg (hstarts cmd)]
  split_ifs <;> exact ⟨_, rfl⟩

/-- Then the program has a process. -/
theorem run_pid_ne_zero (hpid : (w.prog p).pid = 0) (hok : e.startable (w.prog p))
    (h : w.run e p = .ok w') : (w'.prog p).pid ≠ 0 := by
  rcases run_cases h with ⟨-, hno⟩ | ⟨-, -, hint, w₁, -, -, rfl⟩
  · exact absurd ⟨hpid, hok⟩ hno
  · rw [forked_pid]
    exact (w₁.os.freshPid_pos hint).ne'

/-- The default action runs the program itself, unless a program without a name is found. -/
theorem doAction_default (e : Env) (p : ProgPtr) (res sig : ℤ) (w : World) :
    ∃ w₁, w.Quiet w₁ ∧ (w₁.prog p).seqIdx = (w.prog p).seqIdx ∧
      w.doAction e p res sig false { actionType := .exec, prog := [], after := 0 } =
        if (w.s.getProgramByName []).getD p = p then w₁.run e p
        else .ok (w₁.addWorkunit .runProg (toLong (e.now + 0))
          (some ((w.s.getProgramByName []).getD p))) := by
  unfold doAction
  dsimp only
  generalize (w.s.getProgramByName []).getD p = q
  generalize hw₁ : ((w.addSAttrib q (str "res") (toStr res)).addSAttrib q (str "sig")
    (toStr sig)).addSAttrib q (str "name") _ = w₁
  refine ⟨w₁, ?_, ?_, ?_⟩
  · rw [← hw₁]
    exact ((quiet_addSAttrib ..).trans (quiet_addSAttrib ..)).trans (quiet_addSAttrib ..)
  · rw [← hw₁, addSAttrib_seqIdx, addSAttrib_seqIdx, addSAttrib_seqIdx]
  · rw [if_neg (by simp)]
    by_cases hq : q = p
    · rw [if_pos ⟨hq, rfl⟩, if_pos hq]
    · rw [if_neg (fun h => hq h.1), if_neg hq]

/-- The program of `x` at the end of its last command, with an environment in which it can start. -/
structure Ended (x : XMLNode) (env : ℕ → Env) (p : ProgPtr) (w : World) : Prop where
  configured : ∃ cfg, readProgram x = .ok cfg ∧ cfg.Frame (w.prog p)
  pid : (w.prog p).pid = 0
  stopMode : (w.prog p).stopMode ≠ 1
  last : (w.prog p).seqIdx + 1 = (w.prog p).seq.length
  startable : (env 1).startable { w.prog p with seqIdx := 0 }
  fork : (env 1).fork.isSome
  starts : (w.prog p).starts ≠ 2147483647

/-- Without actions and limits, `what_next` comes to the default action after a signal or result 0,
and to no action else. -/
theorem Ended.whatNext_eq {x : XMLNode} (hactions : x.getNamedChild (str "actions") = none)
    (hlimit : x.getNamedChild (str "limit") = none) {env : ℕ → Env} (h : w.Ended x env p)
    (res sig : ℤ) : ∃ w₁, w.Quiet w₁ ∧ w₁.prog p = { w.prog p with seqIdx := 0 } ∧
      w.whatNext env res sig p = if sig > 0 ∨ res = 0 then
        w₁.doAction (env 1) p res sig false { actionType := .exec, prog := [], after := 0 }
      else .ok w₁ := by
  obtain ⟨cfg, hcfg, hframe⟩ := h.configured
  have hlimits : cfg.limits = {} := by
    have hread := (readProgram_eq_ok hcfg).1
    rw [hlimit] at hread
    exact (Except.ok.inj hread).symm
  have hlen : (w.prog p).seq.length ≠ 0 := by
    have := h.last
    omega
  have hwrap : ((w.prog p).seqIdx + 1) % (w.prog p).seq.length = 0 := by
    rw [h.last, Nat.mod_self]
  obtain ⟨w₁, hw₁⟩ : ∃ w₁, w₁ = w.modifyProg p fun _ => { w.prog p with seqIdx := 0 } := ⟨_, rfl⟩
  have hprog₁ : w₁.prog p = { w.prog p with seqIdx := 0 } := by rw [hw₁, modifyProg_prog_self]
  have hget : (w₁.prog p).getActions res sig =
      if sig > 0 ∨ res = 0 then some defaultActions else none := by
    rw [← getActions_default hcfg hactions, Program.getActions, Program.getActions, hprog₁,
      hframe.exitActions, hframe.sgnlActions]
  have hcheck : w₁.checkLimits (env 0) p = (false, w₁) := by
    have hl : (w₁.prog p).limits = {} := by
      rw [hprog₁, ← hlimits]
      exact hframe.limits
    simp [checkLimits, hl]
  refine ⟨w₁, hw₁ ▸ quiet_modifyProg w p (by constructor <;> simp) rfl rfl, hprog₁, ?_⟩
  unfold whatNext Program.incSeqIdx
  rw [if_neg h.stopMode, if_neg hlen, hwrap]
  dsimp only
  rw [if_neg (by simp [h.last]), ← hw₁, hget]
  split_ifs
  · simp only [hcheck, defaultActions, doActions]
    cases w₁.doAction (env 1) p res sig false { actionType := .exec, prog := [], after := 0 } <;> rfl
  · rfl

/-- Without actions and limits, a program runs again exactly after a signal or result 0, unless
another program of its scheduler has no name and is started in its place. -/
theorem default_restart_iff {x : XMLNode} (hactions : x.getNamedChild (str "actions") = none)
    (hlimit : x.getNamedChild (str "limit") = none) {env : ℕ → Env} {p : ProgPtr} {w : World}
    (h : w.Ended x env p) (res sig : ℤ) :
    (∃ w', w.whatNext env res sig p = .ok w' ∧ (w'.prog p).pid ≠ 0) ↔
      (sig > 0 ∨ res = 0) ∧ (w.s.getProgramByName []).getD p = p := by
  obtain ⟨hint, hfork⟩ := Option.isSome_iff_exists.1 h.fork
  obtain ⟨w₁, hq₁, hprog₁, hnext⟩ := h.whatNext_eq hactions hlimit res sig
  have hpid₁ : (w₁.prog p).pid = 0 := (hq₁.pid p).trans h.pid
  rw [hnext]
  by_cases hcode : sig > 0 ∨ res = 0
  case neg =>
    rw [if_neg hcode]
    refine iff_of_false ?_ fun hp => hcode hp.1
    rintro ⟨w', hw', hpid⟩
    cases hw'
    exact hpid hpid₁
  case pos =>
    obtain ⟨w₂, hq₂, hidx, haction⟩ := doAction_default (env 1) p res sig w₁
    have hpid₂ : (w₂.prog p).pid = 0 := (hq₂.pid p).trans hpid₁
    rw [if_pos hcode, haction, hq₁.frame.getProgramByName, and_iff_right hcode]
    by_cases hself : (w.s.getProgramByName []).getD p = p
    · rw [if_pos hself]
      refine iff_of_true ?_ hself
      have hok : (env 1).startable (w₂.prog p) := by
        have hsame := (hq₂.frame.prog p).startable hidx (env 1)
        rw [show w₁.s.prog p = { w.prog p with seqIdx := 0 } from hprog₁] at hsame
        exact hsame.trans h.startable
      have hmax : (w₂.prog p).starts ≠ 2147483647 := by
        rw [hq₂.starts, hq₁.starts]
        exact h.starts
      obtain ⟨w', hw'⟩ := run_eq_ok hok hfork hmax
      exact ⟨w', hw', run_pid_ne_zero hpid₂ hok hw'⟩
    · rw [if_neg hself]
      refine iff_of_false ?_ hself
      rintro ⟨w', hw', hpid⟩
      cases hw'
      exact hpid hpid₂

/-- `<program name="web"><cmd>/bin/web</cmd></program>`. -/
def webXml : XMLNode :=
  { name := str "program", attributes := [(str "name", str "web")]
    children := [{ name := str "cmd", contents := str "/bin/web" }] }

/-- A scheduler with that program, which has no process. -/
def webWorld : World where
  s := { self := 0, name := str "default", programs := [0],
         prog := fun _ => (readProgram webXml).toOption.getD { name := [] } }
  os := ⟨[], []⟩

theorem ended_web : webWorld.Ended webXml (fun _ => {}) 0 where
  configured := ⟨_, rfl, .refl _⟩
  pid := rfl
  stopMode := by decide
  last := rfl
  startable := by decide
  fork := rfl
  starts := by decide

/-- A signal starts it again. -/
theorem default_restart_iff_web :
    (∃ w', webWorld.whatNext (fun _ => {}) 0 11 0 = .ok w' ∧ (w'.prog 0).pid ≠ 0) ↔
      ((11 : ℤ) > 0 ∨ (0 : ℤ) = 0) ∧ (webWorld.s.getProgramByName []).getD 0 = 0 :=
  default_restart_iff rfl rfl ended_web 0 11

/-- Exit code 1 does not. -/
theorem default_restart_fails : ¬∀ (x : XMLNode) (env : ℕ → Env) (p : ProgPtr) (w : World)
    (res sig : ℤ), x.getNamedChild (str "actions") = none → x.getNamedChild (str "limit") = none →
    w.Ended x env p → ∃ w', w.whatNext env res sig p = .ok w' ∧ (w'.prog p).pid ≠ 0 := by
  intro h
  obtain ⟨w', hw', hpid⟩ := h webXml (fun _ => {}) 0 webWorld 1 0 rfl rfl ended_web
  obtain ⟨w₁, hw₁, hzero⟩ : ∃ w₁, webWorld.whatNext (fun _ => {}) 1 0 0 = .ok w₁ ∧
      (w₁.prog 0).pid = 0 := ⟨_, rfl, rfl⟩
  rw [hw₁] at hw'
  cases hw'
  exact hpid hzero

end World

end Peter
