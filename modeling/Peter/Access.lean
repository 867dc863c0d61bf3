import Peter.Answers
import Peter.Lib.Noninterference

/-!
# Who may do what

The three filters of the socket thread: `otp_only` on messages that are not encrypted, the list of
commands, and the list of peers.  Each theorem states the exact condition under which the filter
does what it is for; the examples after it show that the condition can fail.
-/

namespace Peter

open Noninterference

/-! ## Effective commands -/

/-- The command has something to do. -/
def XMLNode.Effective (σ : Process) (x : XMLNode) : Prop :=
  x.name = str "status" ∨
  (x.name = str "info" ∨ x.name = str "quit" ∨ x.name = str "log") ∧ 0 < σ.count ∨
  (x.name = str "start" ∨ x.name = str "stop") ∧
    (∃ i < σ.count, ((σ.thread i).s.getProgramByName (x.nameAttribute [])).isSome) ∨
  ∃ i, x.Addresses σ i (str "quit") ∨ x.Discloses σ i

theorem XMLNode.effective_iff {σ : Process} {x : XMLNode} :
    x.Effective σ ↔ ∃ a, x.Causes σ a := by
  constructor
  · rintro (hx | ⟨hx | hx | hx, hpos⟩ | ⟨hx | hx, i, hi, hp⟩ | ⟨i, hx | ⟨hx, hps⟩⟩)
    · exact ⟨.status, hx⟩
    · exact ⟨.info 0, .inl ⟨hx, hpos⟩⟩
    · exact ⟨.quit 0, .inl ⟨hx, hpos⟩⟩
    · exact ⟨.log 0, hx, hpos⟩
    · exact ⟨.start i _, hx, hi, rfl, hp⟩
    · exact ⟨.stop i _, hx, hi, rfl, hp⟩
    · exact ⟨.quit i, .inr hx⟩
    · exact ⟨.info i, .inr ⟨hx, hps⟩⟩
  · rintro ⟨a, ha⟩
    cases a with
    | status => exact .inl ha
    | info i =>
      rcases ha with ⟨hx, hi⟩ | ⟨hx, hps⟩
      · exact .inr (.inl ⟨.inl hx, Nat.zero_lt_of_lt hi⟩)
      · exact .inr (.inr (.inr ⟨i, .inr ⟨hx, hps⟩⟩))
    | log i => exact .inr (.inl ⟨.inr (.inr ha.1), Nat.zero_lt_of_lt ha.2⟩)
    | quit i =>
      rcases ha with ⟨hx, hi⟩ | hx
      · exact .inr (.inl ⟨.inr (.inl hx), Nat.zero_lt_of_lt hi⟩)
      · exact .inr (.inr (.inr ⟨i, .inl hx⟩))
    | start i name =>
      obtain ⟨hx, hi, rfl, hp⟩ := ha
      exact .inr (.inr (.inl ⟨.inl hx, i, hi, hp⟩))
    | stop i name =>
      obtain ⟨hx, hi, rfl, hp⟩ := ha
      exact .inr (.inr (.inl ⟨.inr hx, i, hi, hp⟩))

/-- An act is one of the command that the element names, or of a child of a `<scheduler>`. -/
theorem XMLNode.Causes.command {σ : Process} {x : XMLNode} {a : Act} (h : x.Causes σ a) :
    x.name = a.command ∨ (∃ i, x.Addresses σ i (str "quit") ∧ a = .quit i) ∨
      ∃ i, x.Discloses σ i ∧ a = .info i := by
  cases a with
  | status => exact .inl h
  | info i =>
    rcases h with ⟨hx, -⟩ | hx
    · exact .inl hx
    · exact .inr (.inr ⟨i, hx, rfl⟩)
  | log i => exact .inl h.1
  | quit i =>
    rcases h with ⟨hx, -⟩ | hx
    · exact .inl hx
    · exact .inr (.inl ⟨i, hx, rfl⟩)
  | start i name => exact .inl h.1
  | stop i name => exact .inl h.1

namespace Session

/-! ## Encrypted messages only -/

/-- `text` is what `otp_d` made of the contents of the root of the message, an `<otp>` element. -/
def DecryptedFrom (h : Host) (cmd text : Str) : Prop :=
  ∃ root offset code, h.parse cmd = .ok root ∧ root.name = str "otp" ∧
    stol (root.getAttribute (str "offset") (str "0")) = some offset ∧
    otpD h.keyfile h.junkD h.roomD (root.getAttribute (str "keyfile") (str "otp.txt")) offset
      root.contents = .ok (code, text)

/-- Every act of the session is one of a command that came encrypted. -/
def OnlyDecrypted (h : Host) (cmd : Str) (σ : Process) (c : Session) : Prop :=
  ∀ d ∈ c.acts, DecryptedFrom h cmd d.2 ∧ ∃ x, h.parse d.2 = .ok x ∧ x.Causes σ d.1

variable {cfg : Config} {h : Host} {peer cmd text : Str} {σ : Process} {x : XMLNode}
  {key : Option OtpKey}

/-- A message with an `<otp>` root is decrypted, any other is taken as it is. -/
theorem decode_eq_command (hd : h.decode cmd = .command key text x) :
    h.parse text = .ok x ∧ ((DecryptedFrom h cmd text ∧ key.isSome) ∨
      (text = cmd ∧ key = none ∧ x.name ≠ str "otp")) := by
  unfold Host.decode at hd
  cases hp : h.parse cmd with
  | error f => cases f <;> simp [hp] at hd
  | ok root =>
    simp only [hp] at hd
    split_ifs at hd with hroot
    · unfold Host.decrypt at hd
      cases hs : stol (root.getAttribute (str "offset") (str "0")) with
      | none => simp [hs] at hd
      | some offset =>
        simp only [hs] at hd
        split at hd
        · cases hd
        · rename_i code plaintext hotp
          split at hd
          · cases hd
          · cases hd
          · rename_i x' hx'
            obtain ⟨rfl, rfl, rfl⟩ := Decoded.command.inj hd
            exact ⟨hx', .inl ⟨⟨root, offset, code, hp, hroot, hs, hotp⟩, rfl⟩⟩
    · obtain ⟨rfl, rfl, rfl⟩ := Decoded.command.inj hd
      exact ⟨hp, .inr ⟨rfl, rfl, hroot⟩⟩

theorem decode_of_plain (hp : h.parse cmd = .ok x) (hx : x.name ≠ str "otp") :
    h.decode cmd = .command none cmd x := by
  unfold Host.decode
  rw [hp]
  exact if_neg hx

theorem DecryptedFrom.root (hd : DecryptedFrom h cmd text) (hp : h.parse cmd = .ok x) :
    x.name = str "otp" := by
  obtain ⟨root, -, -, hroot, hname, -⟩ := hd
  obtain rfl := Except.ok.inj (hp.symm.trans hroot)
  exact hname

/-- With `otp_only`, only decrypted commands are carried out, except those of a message that has
the text `<otp ` somewhere and another root. -/
theorem encrypted_only_iff (cfg : Config) (h : Host) (peer cmd : Str) (σ : Process)
    (honly : cfg.otpOnly = true) (hpeer : cfg.peerAllowed peer = true) :
    OnlyDecrypted h cmd σ (message cfg h peer cmd (accepted σ)) ↔
      ¬ ((find cmd (str "<otp ") 0).isSome ∧ ∃ x, h.parse cmd = .ok x ∧ x.name ≠ str "otp" ∧
        cfg.cmdAllowed x.name ∧ x.Effective σ) := by
  constructor
  · rintro hdec ⟨hfind, x, hp, hname, hallowed, heff⟩
    obtain ⟨a, ha⟩ := XMLNode.effective_iff.1 heff
    have haccepts : cfg.Accepts h peer cmd none cmd x :=
      ⟨fun _ => hfind, hpeer, decode_of_plain hp hname⟩
    have hmem : (a, cmd) ∈ (message cfg h peer cmd (accepted σ)).acts :=
      mem_message_acts.2 ⟨none, x, haccepts, hallowed, ha⟩
    exact hname ((hdec (a, cmd) hmem).1.root hp)
  · intro hno d hd
    obtain ⟨key, x, haccepts, hallowed, ha⟩ := mem_message_acts.1 hd
    obtain ⟨hp, ⟨hdec, -⟩ | ⟨htext, -, hname⟩⟩ := decode_eq_command haccepts.decode
    · exact ⟨hdec, x, hp, ha⟩
    · rw [htext] at hp
      exact absurd ⟨haccepts.otp honly, x, hp, hname, hallowed, XMLNode.effective_iff.2 ⟨d.1, ha⟩⟩
        hno

def localhost : Str := str "127.0.0.1"

/-- `<otp offset="0">…</otp>` around `<quit />` under a key of zeros. -/
def sealedQuit : Str × XMLNode :=
  (str "<otp offset=\"0\">CLGAGEFIGDB@BOCN</otp>",
    { name := str "otp", contents := str "CLGAGEFIGDB@BOCN"
      attributes := [(str "offset", str "0")] })

def plainQuit : Str × XMLNode := (str "<quit />", { name := str "quit" })

/-- A host that knows some documents, and one key file of zeros. -/
def keyHost (documents : List (Str × XMLNode)) : Host :=
  { Host.knowing documents with keyfile := fun _ => some { bytes := List.replicate 128 0 } }

theorem encrypted_only_iff_sealedQuit :
    let h := keyHost [sealedQuit, plainQuit]
    let cfg : Config := { hAllow := [localhost], cAllow := [str "all"], otpOnly := true }
    let c := message cfg h localhost sealedQuit.1 (accepted (.configured [.sleeper]))
    c.acts = [(.quit 0, plainQuit.1)] ∧
      OnlyDecrypted h sealedQuit.1 (.configured [.sleeper]) c := by
  refine ⟨by rfl, (encrypted_only_iff _ _ _ _ _ rfl rfl).2 ?_⟩
  rintro ⟨-, x, hp, hname, -⟩
  have hroot : (keyHost [sealedQuit, plainQuit]).parse sealedQuit.1 = .ok { sealedQuit.2 with
      nodeType := .leaf } := rfl
  obtain rfl := Except.ok.inj (hp.symm.trans hroot)
  exact hname rfl

/-- A `<quit>` with an `<otp />` inside. -/
def quitAroundOtp : Str × XMLNode :=
  (str "<quit><otp /></quit>", { name := str "quit", children := [{ name := str "otp" }] })

/-- It ends the schedulers without being encrypted. -/
theorem encrypted_only_fails :
    let h := Host.knowing [quitAroundOtp]
    let cfg : Config := { hAllow := [localhost], cAllow := [str "all"], otpOnly := true }
    let c := message cfg h localhost quitAroundOtp.1 (accepted (.configured [.sleeper]))
    c.acts = [(.quit 0, quitAroundOtp.1)] ∧
      ¬ OnlyDecrypted h quitAroundOtp.1 (.configured [.sleeper]) c := by
  intro h cfg c
  have hacts : c.acts = [(.quit 0, quitAroundOtp.1)] := by rfl
  refine ⟨hacts, fun hdec => ?_⟩
  obtain ⟨hroot, -⟩ := hdec (.quit 0, quitAroundOtp.1) (by simp [hacts])
  have hp : h.parse quitAroundOtp.1 =
      .ok ⟨str "quit", [], .node, [], [⟨str "otp", [], .leaf, [], []⟩]⟩ := by rfl
  exact absurd (hroot.root hp) (by decide)

/-! ## The list of commands -/

/-- When the list does not begin with `all`, every act belongs to a command in the list, except
those of the children of an allowed `<scheduler>` element. -/
theorem commands_listed_iff (cfg : Config) (h : Host) (peer cmd : Str) (σ : Process)
    (hall : cfg.cAllow.head? ≠ some (str "all")) :
    (∀ d ∈ (message cfg h peer cmd (accepted σ)).acts, d.1.command ∈ cfg.cAllow) ↔
      ¬ ∃ key text x i, cfg.Accepts h peer cmd key text x ∧ str "scheduler" ∈ cfg.cAllow ∧
        (x.Addresses σ i (str "quit") ∧ str "quit" ∉ cfg.cAllow ∨
          x.Discloses σ i ∧ str "info" ∉ cfg.cAllow) := by
  have hallowed : ∀ name, cfg.cmdAllowed name = true ↔ name ∈ cfg.cAllow := by
    intro name
    unfold Config.cmdAllowed
    cases hc : cfg.cAllow with
    | nil => simp
    | cons a as =>
      have ha : a ≠ str "all" := by simpa [hc] using hall
      simp [ha]
  constructor
  · rintro hlisted ⟨key, text, x, i, ha, hscheduler, ⟨hx, hno⟩ | ⟨⟨hx, hps⟩, hno⟩⟩
    · have hmem : (Act.quit i, text) ∈ (message cfg h peer cmd (accepted σ)).acts := by
        refine mem_message_acts.2 ⟨key, x, ha, (hallowed _).2 ?_, .inr hx⟩
        rw [hx.1]
        exact hscheduler
      exact hno (hlisted _ hmem)
    · have hmem : (Act.info i, text) ∈ (message cfg h peer cmd (accepted σ)).acts := by
        refine mem_message_acts.2 ⟨key, x, ha, (hallowed _).2 ?_, .inr ⟨hx, hps⟩⟩
        rw [hx.1]
        exact hscheduler
      exact hno (hlisted _ hmem)
  · rintro hno ⟨a, text⟩ hd
    obtain ⟨key, x, ha, hname, hcause⟩ := mem_message_acts.1 hd
    rw [hallowed] at hname
    rcases hcause.command with hx | ⟨i, hx, rfl⟩ | ⟨i, hx, rfl⟩
    · rw [← show x.name = a.command from hx]
      exact hname
    · by_contra hquit
      exact hno ⟨key, text, x, i, ha, hx.1 ▸ hname, .inl ⟨hx, hquit⟩⟩
    · by_contra hinfo
      exact hno ⟨key, text, x, i, ha, hx.1.1 ▸ hname, .inr ⟨hx, hinfo⟩⟩

/-- `<scheduler><quit /></scheduler>`. -/
def nestedQuit : Str × XMLNode :=
  (str "<scheduler><quit /></scheduler>",
    { name := str "scheduler", children := [{ name := str "quit" }] })

/-- The commands allowed by default. -/
theorem commands_listed_iff_default :
    let cfg : Config := { hAllow := [localhost], cAllow := [str "info", str "log", str "status"] }
    let c := message cfg (.knowing [nestedQuit]) localhost nestedQuit.1
      (accepted (.configured [.sleeper]))
    ∀ d ∈ c.acts, d.1.command ∈ cfg.cAllow := by
  apply (commands_listed_iff _ _ _ _ _ (by decide)).2
  rintro ⟨-, -, -, -, -, hscheduler, -⟩
  exact absurd hscheduler (by decide)

/-- With `scheduler` in the list, its child `quit` need not be. -/
theorem commands_listed_fails :
    let cfg : Config := { hAllow := [localhost], cAllow := [str "scheduler"] }
    let c := message cfg (.knowing [nestedQuit]) localhost nestedQuit.1
      (accepted (.configured [.sleeper]))
    c.acts = [(.quit 0, nestedQuit.1)] ∧ ¬ ∀ d ∈ c.acts, d.1.command ∈ cfg.cAllow := by
  intro cfg c
  have hacts : c.acts = [(.quit 0, nestedQuit.1)] := by rfl
  refine ⟨hacts, fun hlisted => ?_⟩
  have hquit := hlisted (.quit 0, nestedQuit.1) (by simp [hacts])
  exact absurd hquit (by decide)

/-! ## The list of peers -/

/-- The bytes the peer was sent. -/
def bytes (c : Session) : Str := c.io.flatMap fun e => match e with
  | .send t true => t
  | .send _ false => []
  | .close => []

/-- Whatever the schedulers, the connection changes nothing and its bytes are the same. -/
def Blind (cfg : Config) (peer : Str) (input : Input) : Prop :=
  ∀ h σ₁ σ₂, bytes (connection cfg h peer input σ₁) = bytes (connection cfg h peer input σ₂) ∧
    (connection cfg h peer input σ₁).process = σ₁ ∧ (connection cfg h peer input σ₁).halt = none

/-- An operation that works on the socket alone. -/
abbrev SocketOnly (f : Session → Session) : Prop :=
  Confined (fun c => c.io) (fun c => (c.process, c.halt)) f

theorem socketOnly_close : SocketOnly close :=
  ⟨fun _ => rfl, fun s s' hio => by simp only [close, hio]⟩

theorem send_congr (h : Host) (t : Str) {c c' : Session} (hio : c.io = c'.io) :
    (c.send h t).1 = (c'.send h t).1 := by
  simp only [send, hio]

theorem socketOnly_send (h : Host) (t : Str) : SocketOnly fun c => (c.send h t).2 :=
  ⟨fun _ => rfl, fun s s' hio => by simp only [send, hio]⟩

/-- A peer that is not allowed gets at most an error. -/
theorem socketOnly_message (h : Host) (cmd : Str) (hpeer : cfg.peerAllowed peer = false) :
    SocketOnly (message cfg h peer cmd) := by
  have herror := socketOnly_close.comp (socketOnly_send h (errorResult (str "no access")).toStr)
  unfold message
  simp only [hpeer]
  split_ifs
  · exact socketOnly_close
  · exact herror
  · exact absurd rfl ‹_›

theorem socketOnly_pcmd (h : Host) {input : Input} (hpeer : cfg.peerAllowed peer = false)
    (hfits : input.read ≠ .overrun) : SocketOnly (pcmd cfg h peer input) := by
  have hsend := socketOnly_send h (str "1")
  have hgreeted : ∀ f, SocketOnly f → SocketOnly fun c =>
      if !(c.send h (str "1")).1 then (c.send h (str "1")).2.close
      else f (c.send h (str "1")).2 := by
    intro f hf
    refine Confined.ite (fun c c' hio => ?_) (socketOnly_close.comp hsend) (hf.comp hsend)
    rw [send_congr h (str "1") hio]
  unfold pcmd
  cases hread : input.read with
  | text cmd rest => exact hgreeted _ (socketOnly_message h cmd hpeer)
  | waiting => exact hgreeted _ Confined.id
  | overrun => exact absurd hread hfits

/-- A peer outside the list learns and changes nothing, except one that says `pgui`, and one that
sends more than the buffer holds. -/
theorem blind_iff (cfg : Config) (peer : Str) (input : Input)
    (hpeer : cfg.peerAllowed peer = false) :
    Blind cfg peer input ↔ input.read ≠ .overrun ∧ ∀ id rest, input.read = .text id rest →
      id ≠ str "pgui" ∧ (id = str "pcmd" → rest.read ≠ .overrun) := by
  constructor
  · intro hblind
    have hhalt : ∀ σ, (connection cfg {} peer input σ).halt = none := fun σ => (hblind {} σ σ).2.2
    refine ⟨fun hread => ?_, fun id rest hread => ⟨?_, ?_⟩⟩
    · have := hhalt (.configured [])
      simp [connection, serve, hread, stop] at this
    · rintro rfl
      have hbytes := (hblind {} (.configured []) (.configured [.sleeper])).1
      have hgui : ∀ σ, connection cfg {} peer input σ = pgui {} { process := σ } := by
        intro σ
        simp only [connection, serve, hread]
        rfl
      rw [hgui, hgui] at hbytes
      exact absurd hbytes (by decide)
    · rintro rfl hrest
      have := hhalt (.configured [])
      simp [connection, serve, hread, pcmd, send, hrest, stop] at this
  · rintro ⟨hread, htext⟩ h σ₁ σ₂
    have honly : SocketOnly (serve cfg h peer input) := by
      unfold serve
      cases hr : input.read with
      | waiting => exact Confined.id
      | overrun => exact absurd hr hread
      | text id rest =>
        obtain ⟨hgui, hcmd⟩ := htext id rest hr
        simp only [if_neg hgui]
        split_ifs with hid
        · exact socketOnly_pcmd h hpeer (hcmd hid)
        · exact socketOnly_close
    have hhigh := honly.high_eq { process := σ₁ }
    simp only [Prod.mk.injEq] at hhigh
    refine ⟨?_, hhigh⟩
    unfold bytes connection
    rw [honly.low_congr { process := σ₁ } { process := σ₂ } rfl]

/-- The lines `pcmd`, `<info />` and `pgui`. -/
def cmdLine : Chunk := ⟨str "pcmd\n", by decide, by decide⟩

def infoLine : Chunk := ⟨str "<info />\n", by decide, by decide⟩

def guiLine : Chunk := ⟨str "pgui\n", by decide, by decide⟩

/-- A configuration for commands from the machine itself. -/
def localOnly : Config := { hAllow := [localhost], cAllow := [str "all"] }

def stranger : Str := str "10.0.0.7"

theorem blind_iff_info : Blind localOnly stranger ⟨[cmdLine, infoLine], true⟩ := by
  apply (blind_iff localOnly stranger ⟨[cmdLine, infoLine], true⟩ (by decide)).2
  have hread : Input.read ⟨[cmdLine, infoLine], true⟩ = .text (str "pcmd") ⟨[infoLine], true⟩ := by
    rfl
  have hrest : Input.read ⟨[infoLine], true⟩ = .text (str "<info />") ⟨[], true⟩ := by rfl
  rw [hread]
  refine ⟨by simp, fun id rest htext => ?_⟩
  obtain ⟨rfl, rfl⟩ := Received.text.inj htext
  rw [hrest]
  exact ⟨by decide, by simp⟩

/-- A stranger that says `pgui` is sent the state of every program. -/
theorem blind_fails :
    bytes (connection localOnly {} stranger ⟨[guiLine], true⟩ (.configured [.sleeper])) =
        str "sleeper P:0 S:0 A:00s D:00s\n" ∧
      ¬ Blind localOnly stranger ⟨[guiLine], true⟩ := by
  have htold : bytes (connection localOnly {} stranger ⟨[guiLine], true⟩
      (.configured [.sleeper])) = str "sleeper P:0 S:0 A:00s D:00s\n" := by rfl
  refine ⟨htold, fun hblind => ?_⟩
  have hsame := (hblind {} (.configured []) (.configured [.sleeper])).1
  rw [htold] at hsame
  exact absurd hsame (by decide)

end Session

end Peter
