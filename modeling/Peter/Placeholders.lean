import Peter.Actions
import Peter.Replacing
import Peter.Values

/-!
# Placeholders in commands

`run` replaces `NAME`, `RES`, `SIG` and `UTC` in the command it has kept from the start before, and
then takes the next command of the sequence in its place.  So the process runs the command of the
sequence as it stands, which is what it should be only when there is nothing to replace
(`placeholders_iff`).
-/

namespace Peter

open Substitution (Replaced)

/-! ## The text that should run -/

/-- A command with its placeholders filled in, one after the other. -/
def Env.filled (e : Env) (prog : Program) (cmd : Str) : Str :=
  let cmd := replacein cmd (str "NAME") (prog.sAttribs (str "name"))
  let cmd := replacein cmd (str "RES") (prog.sAttribs (str "res"))
  let cmd := replacein cmd (str "SIG") (prog.sAttribs (str "sig"))
  replacein cmd (str "UTC") (e.dateTimeUtc e.now)

/-- The attributes of a program are as `what_next` sets them, or not set yet. -/
inductive Program.Noted (prog : Program) : Prop
  | unset (hname : prog.sAttribs (str "name") = []) (hres : prog.sAttribs (str "res") = [])
      (hsig : prog.sAttribs (str "sig") = [])
  | set {res sig : ℤ} (hres : prog.sAttribs (str "res") = toStr res)
      (hsig : prog.sAttribs (str "sig") = toStr sig)

theorem World.noted_setAttribs (w : World) (p q : ProgPtr) (res sig : ℤ) :
    ((w.setAttribs p q res sig).prog q).Noted := by
  rw [World.setAttribs_prog_self]
  refine .set (?_ : _ = toStr res) (?_ : _ = toStr sig)
  · dsimp only
    rw [Function.update_of_ne (by decide), Function.update_of_ne (by decide),
      Function.update_self]
  · dsimp only
    rw [Function.update_of_ne (by decide), Function.update_self]

/-- A text of the form `%Y/%m/%d %H:%M`. -/
def IsDateTime (s : Str) : Prop := ∃ year month day hour minute : Str,
  s = year ++ str "/" ++ month ++ str "/" ++ day ++ str " " ++ hour ++ str ":" ++ minute

/-- The bytes that stand in no placeholder. -/
def outside (c : UInt8) : Bool := c ∉ str "NAMERESIGUTC"

theorem outside_of_isDigit {c : UInt8} (hc : IsDigit c) : outside c = true := by
  have hall : ∀ d ∈ str "NAMERESIGUTC", ¬(48 ≤ d.toNat ∧ d.toNat ≤ 57) := by decide
  exact decide_eq_true fun h => hall c h hc

theorem countP_outside_toStr (i : ℤ) : 0 < (toStr i).countP outside := by
  have hnat : ∀ n : ℕ, 0 < (toStr (n : ℤ)).countP outside := by
    intro n
    obtain ⟨c, t, ht, hc⟩ := toStr_eq_cons n
    rw [ht]
    exact List.countP_pos_iff.2 ⟨c, List.mem_cons_self, outside_of_isDigit hc⟩
  cases i with
  | ofNat n => exact hnat n
  | negSucc n =>
    rw [toStr_negSucc, List.countP_cons]
    exact Nat.add_pos_left (hnat (n + 1)) _

theorem countP_outside_dateTime {s : Str} (h : IsDateTime s) : 0 < s.countP outside := by
  obtain ⟨year, month, day, hour, minute, rfl⟩ := h
  refine List.countP_pos_iff.2 ⟨47, ?_, by decide⟩
  simp [show str "/" = [47] from rfl]

/-- There is nothing to fill in: the command has none of the placeholders, but for a `NAME` that
stands for itself. -/
structure Plain (prog : Program) (cmd : Str) : Prop where
  name : ¬str "NAME" <:+: cmd ∨ prog.sAttribs (str "name") = str "NAME"
  res : ¬str "RES" <:+: cmd
  sig : ¬str "SIG" <:+: cmd
  utc : ¬str "UTC" <:+: cmd

/-- When a text comes back from three replacements, there was no `RES` and no `SIG` in it. -/
theorem Program.Noted.not_infix {prog : Program} (hset : prog.Noted) {c c₁ c₂ : Str}
    (h₁ : Replaced (str "NAME") (prog.sAttribs (str "name")) c c₁)
    (h₂ : Replaced (str "RES") (prog.sAttribs (str "res")) c₁ c₂)
    (h₃ : Replaced (str "SIG") (prog.sAttribs (str "sig")) c₂ c) :
    ¬str "SIG" <:+: c₂ ∧ ¬str "RES" <:+: c₁ := by
  cases hset with
  | unset hname hres hsig =>
    -- what is replaced by nothing shortens the text
    rw [hname] at h₁
    rw [hres] at h₂
    rw [hsig] at h₃
    have hl₁ := h₁.length_le (Nat.zero_le _)
    have hl₂ := h₂.length_le (Nat.zero_le _)
    have hl₃ := h₃.length_le (Nat.zero_le _)
    constructor
    · intro hin
      have := h₃.length_lt hin (by decide)
      omega
    · intro hin
      have := h₂.length_lt hin (by decide)
      omega
  | set hres hsig =>
    -- and a number adds bytes from outside the placeholders
    have hm₁ : c.countP outside ≤ c₁.countP outside := h₁.countP_le (Nat.zero_le _)
    have hm₂ : c₁.countP outside ≤ c₂.countP outside := h₂.countP_le (Nat.zero_le _)
    have hm₃ : c₂.countP outside ≤ c.countP outside := h₃.countP_le (Nat.zero_le _)
    rw [hres] at h₂
    rw [hsig] at h₃
    constructor
    · intro hin
      have := h₃.countP_lt (q := outside) hin (countP_outside_toStr _)
      omega
    · intro hin
      have := h₂.countP_lt (q := outside) hin (countP_outside_toStr _)
      omega

/-- A text filled in is the text itself when there was nothing to fill in. -/
theorem filled_eq_self_iff {e : Env} {prog : Program} (hset : prog.Noted)
    (hdate : IsDateTime (e.dateTimeUtc e.now)) (cmd : Str) :
    e.filled prog cmd = cmd ↔ Plain prog cmd := by
  obtain ⟨c₁, hc₁⟩ : ∃ c, c = replacein cmd (str "NAME") (prog.sAttribs (str "name")) := ⟨_, rfl⟩
  obtain ⟨c₂, hc₂⟩ : ∃ c, c = replacein c₁ (str "RES") (prog.sAttribs (str "res")) := ⟨_, rfl⟩
  obtain ⟨c₃, hc₃⟩ : ∃ c, c = replacein c₂ (str "SIG") (prog.sAttribs (str "sig")) := ⟨_, rfl⟩
  have h₁ := replacein_replaced cmd (show str "NAME" ≠ [] by decide) (prog.sAttribs (str "name"))
  have h₂ := replacein_replaced c₁ (show str "RES" ≠ [] by decide) (prog.sAttribs (str "res"))
  have h₃ := replacein_replaced c₂ (show str "SIG" ≠ [] by decide) (prog.sAttribs (str "sig"))
  have h₄ := replacein_replaced c₃ (show str "UTC" ≠ [] by decide) (e.dateTimeUtc e.now)
  have hfilled : e.filled prog cmd = replacein c₃ (str "UTC") (e.dateTimeUtc e.now) := by
    rw [hc₃, hc₂, hc₁]
    rfl
  rw [hfilled]
  rw [← hc₁] at h₁
  rw [← hc₂] at h₂
  rw [← hc₃] at h₃
  generalize replacein c₃ (str "UTC") (e.dateTimeUtc e.now) = c₄ at h₄
  constructor
  · rintro rfl
    -- no replacement takes bytes from outside the placeholders away, and that of `UTC` adds some
    have hm₁ : c₄.countP outside ≤ c₁.countP outside := h₁.countP_le (Nat.zero_le _)
    have hm₂ : c₁.countP outside ≤ c₂.countP outside := h₂.countP_le (Nat.zero_le _)
    have hm₃ : c₂.countP outside ≤ c₃.countP outside := h₃.countP_le (Nat.zero_le _)
    have hutc : ¬str "UTC" <:+: c₃ := by
      intro hin
      have := h₄.countP_lt (q := outside) hin (countP_outside_dateTime hdate)
      omega
    obtain rfl : c₄ = c₃ := h₄.eq_self_of_not_infix hutc
    obtain ⟨hsig, hres⟩ := hset.not_infix h₁ h₂ h₃
    obtain rfl : c₄ = c₂ := h₃.eq_self_of_not_infix hsig
    obtain rfl : c₄ = c₁ := h₂.eq_self_of_not_infix hres
    exact ⟨h₁.eq_self_iff.1 rfl, hres, hsig, hutc⟩
  · rintro ⟨hname, hres, hsig, hutc⟩
    obtain rfl : c₁ = cmd := h₁.eq_self_iff.2 hname
    obtain rfl : c₂ = c₁ := h₂.eq_self_of_not_infix hres
    obtain rfl : c₃ = c₂ := h₃.eq_self_of_not_infix hsig
    exact h₄.eq_self_of_not_infix hutc

/-! ## The text that runs -/

namespace World

variable {w w' : World} {p : ProgPtr} {e : Env}

/-- The process that `run` starts has the filled in command, and the sequence keeps the command as
it is, exactly when there is nothing to fill in. -/
theorem placeholders_iff {cmd : Str} (hcmd : (w.prog p).seq[(w.prog p).seqIdx]? = some cmd)
    (hset : (w.prog p).Noted) (hdate : IsDateTime (e.dateTimeUtc e.now))
    (hpid : (w.prog p).pid = 0) (h : w.run e p = .ok w') (hstart : (w'.prog p).pid ≠ 0) :
    (w'.prog p).cmd = e.filled (w.prog p) cmd ∧ (w'.prog p).seq = (w.prog p).seq ↔
      Plain (w.prog p) cmd := by
  rw [← filled_eq_self_iff hset hdate]
  have hagain : w.Again (fun _ => e) p w' := again_run h
  rcases hagain with hs | ⟨_, hs⟩
  · exact absurd ((hs.pid p).trans hpid) hstart
  · obtain ⟨hint, hturns⟩ := hs.turns
    rw [Option.some.inj (hs.cmd.symm.trans hcmd), and_iff_left (hturns.seq p)]
    exact eq_comm

/-- `FailNotification` after a crash of `P1`, as what it does is noted in its attributes. -/
def notifier : World where
  s := { self := 0, name := str "default", programs := [0, 1]
         prog := fun p => if p = 0 then { name := str "P1", seq := [str "/bin/p1"] } else
           { name := str "FailNotification"
             seq := [str "mail -text \"UTC:Program NAME failed (RES/SIG).\""] } }
  os := ⟨[], []⟩

def noon : Env := { dateTimeUtc := fun _ => str "2009/03/01 12:00" }

theorem isDateTime_noon : IsDateTime (noon.dateTimeUtc noon.now) :=
  ⟨str "2009", str "03", str "01", str "12", str "00", by decide⟩

/-- A command without placeholders runs as it should. -/
theorem placeholders_iff_notifier : ∃ w', notifier.run noon 0 = .ok w' ∧
    ((w'.prog 0).cmd = noon.filled (notifier.prog 0) (str "/bin/p1") ∧
      (w'.prog 0).seq = (notifier.prog 0).seq ↔ Plain (notifier.prog 0) (str "/bin/p1")) := by
  obtain ⟨w', hw', hpid⟩ : ∃ w', notifier.run noon 0 = .ok w' ∧ (w'.prog 0).pid ≠ 0 :=
    ⟨_, rfl, by decide⟩
  exact ⟨w', hw', placeholders_iff rfl (.unset rfl rfl rfl) isDateTime_noon rfl hw' hpid⟩

theorem placeholders_fails : ¬∀ (w w' : World) (p : ProgPtr) (e : Env) (cmd : Str),
    (w.prog p).seq[(w.prog p).seqIdx]? = some cmd → (w.prog p).Noted →
    IsDateTime (e.dateTimeUtc e.now) → (w.prog p).pid = 0 → w.run e p = .ok w' →
    (w'.prog p).pid ≠ 0 →
    (w'.prog p).cmd = e.filled (w.prog p) cmd ∧ (w'.prog p).seq = (w.prog p).seq := by
  intro h
  have hset := notifier.noted_setAttribs 0 1 0 11
  obtain ⟨w', cmd, hcmd, hw', hpid, hraw, hres⟩ : ∃ w' cmd,
      ((notifier.setAttribs 0 1 0 11).prog 1).seq[0]? = some cmd ∧
      (notifier.setAttribs 0 1 0 11).run noon 1 = .ok w' ∧ (w'.prog 1).pid ≠ 0 ∧
      (w'.prog 1).cmd = cmd ∧ str "RES" <:+: cmd :=
    ⟨_, _, rfl, rfl, by decide, rfl, by decide⟩
  have hfilled := (h _ w' 1 noon cmd hcmd hset isDateTime_noon rfl hw' hpid).1
  rw [hraw] at hfilled
  exact ((filled_eq_self_iff hset isDateTime_noon cmd).1 hfilled.symm).res hres

end World

end Peter
