import Peter.KeyUse
import Peter.PadUse

/-!
# Encrypted and in clear

`Exchange.clear` is the connection on which the command of an exchange comes as it was typed.  When
both ends have the key, the encrypted one has the same effect (`served_effect`), whatever becomes
of the answer.  The client prints the answer to the command in clear in exactly the cases in which
the command is carried out and answered alone (`transparent_iff`); it prints no error that the
server sends in clear.
-/

namespace Peter

/-! ## Both ends of a key file -/

section Keys

variable {keyfile keyfile' : Str → Option Keyfile} {junk junk' : ℕ → UInt8} {kf pt cy : Str}
  {f : Keyfile} {of : ℤ} {room : ℕ → Bool}

theorem lt_of_text {s : Str} (hs : ∀ c ∈ s, 1 ≤ c.toNat ∧ c.toNat ≤ 127) :
    ∀ c ∈ s, c.toNat < 128 := by
  intro c hc
  have := hs c hc
  omega

theorem Keyfile.Covers.buffer_lt {n : ℕ} (h : f.Covers of n) (junk : ℕ → UInt8) :
    ∀ i < n, (buffer junk (f.read of n).1 (0 + i)).toNat < 128 := by
  intro i hi
  rw [Nat.zero_add, h.buffer_read le_rfl junk hi]
  exact h.key_lt hi

/-- With the key in the file `otp_e` is `otp_e_char`. -/
theorem otpE_eq_ok_iff (hf : keyfile kf = some f) (hcovers : f.Covers of pt.length)
    (hpt : ∀ p ∈ pt, 1 ≤ p.toNat ∧ p.toNat ≤ 127) :
    otpE keyfile junk kf of pt = .ok (0, cy) ↔
      otpEChar (buffer junk (f.read of pt.length).1) pt 0 = .ok cy := by
  have hcstr : cStr pt = pt := by
    apply cStr_eq_self
    intro h0
    exact absurd (hpt 0 h0).1 (by decide)
  have heof : (f.read of pt.length).2 = false := by
    have hlen := hcovers.length_le
    rw [hcovers.read_eq]
    simp only [List.length_drop, decide_eq_false_iff_not]
    omega
  unfold otpE
  simp only [hf, heof, hcstr, Bool.false_eq_true, if_false]
  cases otpEChar (buffer junk (f.read of pt.length).1) pt 0 <;> simp

theorem exists_otpE (hf : keyfile kf = some f) (hcovers : f.Covers of pt.length)
    (hpt : ∀ p ∈ pt, 1 ≤ p.toNat ∧ p.toNat ≤ 127) (junk : ℕ → UInt8) :
    ∃ cy, otpE keyfile junk kf of pt = .ok (0, cy) := by
  obtain ⟨cy, hcy, -⟩ := otpDChar_otpEChar (lt_of_text hpt) (hcovers.buffer_lt junk)
  exact ⟨cy, (otpE_eq_ok_iff hf hcovers hpt).2 hcy⟩

/-- What one end has encrypted the other one decrypts, in a block with room for the zero. -/
theorem otpD_of_otpE (hf : keyfile kf = some f) (hf' : keyfile' kf = some f)
    (hcovers : f.Covers of pt.length) (hpt : ∀ p ∈ pt, 1 ≤ p.toNat ∧ p.toNat ≤ 127)
    (hroom : room (2 * pt.length) = true) (hcy : otpE keyfile junk kf of pt = .ok (0, cy)) :
    cy.length = 2 * pt.length ∧ otpD keyfile' junk' room kf of cy = .ok (0, pt) := by
  rw [otpE_eq_ok_iff hf hcovers hpt] at hcy
  obtain ⟨cy', hcy', hlen, -, hdec⟩ := otpDChar_otpEChar (lt_of_text hpt) (hcovers.buffer_lt junk)
  obtain rfl := Except.ok.inj (hcy.symm.trans hcy')
  have hsame : ∀ n < pt.length, buffer junk' (f.read of cy.length).1 (0 + n) =
      buffer junk (f.read of pt.length).1 (0 + n) := by
    intro n hn
    rw [Nat.zero_add, hcovers.buffer_read le_rfl junk hn]
    exact hcovers.buffer_read (by omega) junk' hn
  refine ⟨hlen, ?_⟩
  rw [otpD_eq hf' (hdec _ hsame), hlen, hroom]
  rfl

end Keys

/-! ## What the client prints -/

namespace Host

variable {h : Host} {t s : Str} {key : OtpKey} {pt : Str}

/-- The texts of the client itself, which are no answers in clear. -/
theorem printed_ne_of_name_ne (hne : ∀ y, h.parse t = .ok y → y.name ≠ str "otp")
    (hs : Session.Clear s) : h.printed t ≠ .ok s := by
  obtain ⟨rest, rfl⟩ := hs
  unfold printed
  split_ifs
  · simp [str]
  · cases hparse : h.parse t with
    | error f => cases f <;> simp [str]
    | ok y =>
      simp only [if_neg (hne y hparse)]
      simp [str]

theorem printed_nil : h.printed [] = .ok (str "ERROR: did not get parsable result.\n") := rfl

/-- A reply is decrypted. -/
theorem printed_envelope {y : XMLNode} (hparse : h.parse (Session.envelope key pt) = .ok y)
    (hy : y.Envelops key pt)
    (hres : otpD h.keyfile h.junkD h.roomD key.keyfile (toInt key.offset) pt = .ok (0, s)) :
    h.printed (Session.envelope key pt) = .ok s := by
  have hcode : Session.envelope key pt ≠ str "2" := by simp [Session.envelope, str]
  unfold printed
  simp only [if_neg hcode, hparse, if_pos hy.name, hy.offset, stol_printed, hy.keyfile,
    hy.contents, hres, gt_iff_lt, lt_self_iff_false, if_false]

/-! ## What the server makes of a message -/

/-- The command in a decrypted text, which is answered under `key`. -/
def opened (h : Host) (key : OtpKey) (text : Str) : Decoded :=
  match h.parse text with
  | .error .parseError => .parseError true
  | .error .undefined => .halt .undefined
  | .ok x => .command (some key) text x

theorem decode_envelope {root : XMLNode} (hroot : h.parse (Session.envelope key pt) = .ok root)
    (hr : root.Envelops key pt)
    (hres : otpD h.keyfile h.junkD h.roomD key.keyfile (toInt key.offset) pt = .ok (0, s)) :
    h.decode (Session.envelope key pt) =
      h.opened ⟨key.keyfile, toLong (toInt key.offset + pt.length)⟩ s := by
  rw [Session.decode_of_otp hroot hr.name]
  unfold decrypt opened
  cases hs : h.parse s with
  | error f => cases f <;> simp only [hr.offset, stol_printed, hr.keyfile, hr.contents, hres, hs]
  | ok x => simp only [hr.offset, stol_printed, hr.keyfile, hr.contents, hres, hs]

/-- The server decrypts the letters of a text, whoever made them. -/
theorem decode_sealed {keyfile : Str → Option Keyfile} {junk : ℕ → UInt8} {kf q cy : Str}
    {f : Keyfile} {of : ℤ} {root : XMLNode} (hf : h.keyfile kf = some f)
    (hq : ∀ p ∈ q, 1 ≤ p.toNat ∧ p.toNat ≤ 127) (hcovers : f.Covers of q.length)
    (hfits : of + 2 * q.length ≤ 2147483647) (hroom : h.roomD (2 * q.length) = true)
    (hf' : keyfile kf = some f)
    (hcy : otpE keyfile junk kf of q = .ok (0, cy))
    (hroot : h.parse (Session.envelope ⟨kf, of⟩ cy) = .ok root) (hr : root.Envelops ⟨kf, of⟩ cy) :
    h.decode (Session.envelope ⟨kf, of⟩ cy) = h.opened ⟨kf, of + 2 * q.length⟩ q := by
  obtain ⟨hlen, hres⟩ := otpD_of_otpE hf' hf hcovers hq hroom hcy
  have hnonneg := hcovers.nonneg
  have hint : toInt of = of := toInt_of_mem (by omega) (by omega)
  rw [decode_envelope hroot hr (by rw [hint]; exact hres), hint, hlen,
    toLong_of_mem (by omega) (by omega)]
  push_cast
  rfl

end Host

/-- The configuration that takes commands in clear. -/
def Config.inClear (cfg : Config) : Config := { cfg with otpOnly := false }

namespace Session

variable {cfg : Config} {h : Host} {peer cmd text : Str} {σ : Process} {c c' : Session}
  {x : XMLNode} {key : Option OtpKey} {k : OtpKey}

theorem find_envelope (key : OtpKey) (pt : Str) :
    (find (envelope key pt) (str "<otp ") 0).isSome := by
  rfl

/-! ## Effects -/

/-- The two connections did the same to the schedulers. -/
def SameEffect (c c' : Session) : Prop := c.process = c'.process ∧ c.acts = c'.acts

theorem reply_effect (c : Session) (h : Host) (key key' : Option OtpKey) (tmp tmp' : Str) :
    SameEffect (c.reply h key tmp) (c.reply h key' tmp') :=
  ⟨by rw [reply_process, reply_process], by rw [reply_acts, reply_acts]⟩

theorem execute_effect (cfg : Config) (h : Host) (key : Option OtpKey) (text : Str) (x : XMLNode)
    (c : Session) : SameEffect (execute cfg h key text x c) (execute cfg.inClear h none text x c) := by
  cases hallowed : cfg.cmdAllowed x.name with
  | false =>
    have hclear : cfg.inClear.cmdAllowed x.name = false := hallowed
    rw [execute_of_not_allowed hallowed, execute_of_not_allowed hclear]
    exact ⟨rfl, rfl⟩
  | true =>
    have hclear : cfg.inClear.cmdAllowed x.name = true := hallowed
    rw [execute_of_allowed hallowed, execute_of_allowed hclear]
    exact reply_effect _ h key none _ _

section Read

variable (hotp : cfg.otpOnly = true → (find cmd (str "<otp ") 0).isSome)
include hotp

theorem message_of_no_access (hpeer : cfg.peerAllowed peer = false) (c : Session) :
    message cfg h peer cmd c = (c.send h (errorResult (str "no access")).toStr).2.close := by
  unfold message
  rw [otpOnly_eq_false hotp, hpeer]
  rfl

theorem message_of_parseError (hpeer : cfg.peerAllowed peer = true) {otpMode : Bool}
    (hdecode : h.decode cmd = .parseError otpMode) (c : Session) :
    message cfg h peer cmd c =
      if otpMode then c.close else (c.send h (errorResult (str "XML error")).toStr).2.close := by
  unfold message
  rw [otpOnly_eq_false hotp, hpeer, hdecode]
  rfl

theorem message_of_halt (hpeer : cfg.peerAllowed peer = true) {halt : Halt}
    (hdecode : h.decode cmd = .halt halt) (c : Session) :
    message cfg h peer cmd c = c.stop halt := by
  unfold message
  rw [otpOnly_eq_false hotp, hpeer, hdecode]
  rfl

end Read

theorem inClear_otp (cfg : Config) (cmd : Str) :
    cfg.inClear.otpOnly = true → (find cmd (str "<otp ") 0).isSome := by
  intro h
  cases h

/-- An encrypted message has the effect that its text has in clear, whether it is answered or not.
A text that is encrypted itself is not decrypted again. -/
theorem message_effect (hcmd : (find cmd (str "<otp ") 0).isSome)
    (hdecode : h.decode cmd = h.opened k text)
    (hname : ∀ x, h.parse text = .ok x → x.name ≠ str "otp") (c : Session) :
    SameEffect (message cfg h peer cmd c) (message cfg.inClear h peer text c) := by
  have hotp := inClear_otp cfg text
  cases hpeer : cfg.peerAllowed peer with
  | false =>
    rw [message_of_no_access (fun _ => hcmd) hpeer, message_of_no_access hotp hpeer]
    exact ⟨rfl, rfl⟩
  | true =>
    unfold Host.opened at hdecode
    cases hparse : h.parse text with
    | ok x =>
      simp only [hparse] at hdecode
      rw [message_of_accepts ⟨fun _ => hcmd, hpeer, hdecode⟩,
        message_of_accepts ⟨hotp, hpeer, decode_of_plain hparse (hname x hparse)⟩]
      exact execute_effect cfg h (some k) text x c
    | error f =>
      cases f with
      | parseError =>
        simp only [hparse] at hdecode
        have hclear : h.decode text = .parseError false := by simp only [Host.decode, hparse]
        rw [message_of_parseError (fun _ => hcmd) hpeer hdecode,
          message_of_parseError hotp hpeer hclear]
        exact ⟨rfl, rfl⟩
      | undefined =>
        simp only [hparse] at hdecode
        have hclear : h.decode text = .halt .undefined := by simp only [Host.decode, hparse]
        rw [message_of_halt (fun _ => hcmd) hpeer hdecode, message_of_halt hotp hpeer hclear]
        exact ⟨rfl, rfl⟩

/-! ## Answers -/

/-- Everything was sent, and the client is not closed. -/
def Sent (c : Session) : Prop := ∀ e ∈ c.io, ∃ t, e = .send t true

theorem Sent.of_eq (hc : Sent c) (hio : c'.io = c.io) : Sent c' := by
  unfold Sent
  rw [hio]
  exact hc

theorem sent_accepted (σ : Process) : Sent (accepted σ) := by
  intro e he
  exact ⟨_, List.mem_singleton.1 he⟩

theorem Sent.not_closed (hc : Sent c) : Io.close ∉ c.io := by
  intro hclose
  obtain ⟨t, ht⟩ := hc _ hclose
  cases ht

variable (hsend : ∀ n, h.sendOk n = true)
include hsend

theorem Sent.send_ok (hc : Sent c) (t : Str) : (c.send h t).1 = true := by
  simp [send, hsend, hc.not_closed]

theorem Sent.send (hc : Sent c) (t : Str) : Sent (c.send h t).2 := by
  intro e he
  rcases List.mem_append.1 he with he | he
  · exact hc e he
  · rw [List.mem_singleton.1 he]
    exact ⟨t, congrArg _ (hc.send_ok hsend t)⟩

theorem Sent.sendInfos (hc : Sent c) (text : Str) (i : ℕ) (ps : List ProgPtr) :
    Sent (sendInfos h text i ps c) := by
  induction ps generalizing c with
  | nil => exact hc
  | cons p ps ih =>
    have hone : Sent (sendInfo h text i p c).2 := Sent.send hsend hc _
    rcases sendInfos_cons h text i p ps c with hrest | hrest <;> rw [hrest]
    · exact ih hone
    · exact hone

theorem Sent.commandFd (hc : Sent c) (text : Str) (i : ℕ) (cmd : Str) :
    Sent (commandFd h text i cmd c) := by
  unfold Session.commandFd
  split_ifs
  · exact hc.sendInfos hsend text i _
  · exact hc.of_eq rfl
  · exact hc

theorem Sent.dispatch (hc : Sent c) (cfg : Config) (text : Str) (x : XMLNode) :
    Sent (dispatch cfg h text x c).2 := by
  unfold Session.dispatch
  split_ifs
  · exact hc.of_eq rfl
  · cases c.process.getScheduler (x.nameAttribute (str "default")) with
    | none => exact hc
    | some i =>
      apply List.foldlRecOn (motive := Sent) _ _ hc
      exact fun c hc child _ => hc.commandFd hsend text i child.name
  · exact hc.of_eq (forSchedulers_frame io (fun i c => command_io i _ c) _ c)
  · exact hc.of_eq (forSchedulers_frame io (fun i c => command_io i _ c) _ c)
  · exact hc.of_eq (forSchedulers_frame io (fun i c => addNamed_io _ _ _ i c) _ c)
  · exact hc.of_eq (forSchedulers_frame io (fun i c => addNamed_io _ _ _ i c) _ c)
  · exact hc.of_eq (forSchedulers_frame io (fun i c => command_io i _ c) _ c)
  · exact hc

omit hsend

/-- The first text that arrives begins the answer. -/
theorem clear_answer {t : Str} {rest : List Io} (ht : Clear t)
    (hio : c.io = .send (str "1") true :: .send t true :: rest) : Clear c.answer := by
  rw [answer_eq_bytes hio]
  exact ht.append _

/-- An error is the whole answer. -/
theorem clear_answer_error (hsend : h.sendOk 1 = true) (σ : Process) (type : Str) :
    Clear ((accepted σ).send h (errorResult type).toStr).2.close.answer := by
  have hio : ((accepted σ).send h (errorResult type).toStr).2.close.io =
      [.send (str "1") true, .send (errorResult type).toStr true, .close] := by
    simp [close, send, accepted, hsend]
  exact clear_answer (errorResult_clear type) hio

/-- A command that is not allowed, or that discloses programs, is answered in clear at first. -/
theorem clear_answer_execute (hsend : ∀ n, h.sendOk n = true) (key : Option OtpKey) (text : Str)
    (hbad : cfg.cmdAllowed x.name = false ∨ ∃ i, x.Discloses σ i) :
    Clear (execute cfg h key text x (accepted σ)).answer := by
  by_cases hno : cfg.cmdAllowed x.name = false
  · rw [execute_of_not_allowed hno]
    exact clear_answer_error (hsend 1) σ _
  · have hyes : cfg.cmdAllowed x.name = true := by simpa using hno
    obtain ⟨i, hx⟩ := hbad.resolve_left hno
    have hfollows := accepted_follows σ h.now
    obtain ⟨e, he, p, ok, rfl⟩ := dispatch_sends cfg text hx hfollows
    obtain ⟨new, hnew, hinfo⟩ := dispatch_io cfg text x hfollows
    obtain ⟨late, hlate, -⟩ := reply_io (dispatch cfg h text x (accepted σ)).2 h key
      (dispatch cfg h text x (accepted σ)).1.toStr
    have hsent : ∀ e ∈ (dispatch cfg h text x (accepted σ)).2.io, ∃ t, e = .send t true :=
      (sent_accepted σ).dispatch hsend cfg text x
    rw [execute_of_allowed hyes]
    rw [hnew] at hlate hsent he
    cases new with
    | nil =>
      obtain ⟨rest, hrest⟩ := xmlInfo_clear h.utc ((σ.thread i).s.prog p)
      have hone := (Io.send.inj (List.mem_singleton.1 (by simpa [accepted] using he))).1
      rw [hrest] at hone
      simp [str] at hone
    | cons e new =>
      obtain ⟨j, hj, -⟩ := hinfo e List.mem_cons_self
      obtain ⟨t, rfl⟩ := hsent e (by simp)
      exact clear_answer (clear_of_sendsInfo hj) (by rw [hlate]; rfl)

/-- In clear an allowed command that discloses nothing is answered with its result. -/
theorem answer_of_plain (hsend : h.sendOk 1 = true) (hyes : cfg.cmdAllowed x.name = true)
    (hx : ∀ i, ¬x.Discloses σ i) (text : Str) :
    (execute cfg h none text x (accepted σ)).answer =
      (dispatch cfg h text x (accepted σ)).1.toStr := by
  have hio := dispatch_io_eq (h := h) cfg text hx
  rw [execute_of_allowed hyes]
  unfold answer bytes reply close send
  simp [hio, hsend]

end Session

/-! ## Exchanges -/

namespace Exchange

variable {x : Exchange} {kf : Str} {f : Keyfile} {of : ℤ} {pt : Str} {y root : XMLNode}

/-- The connection on which the command comes in clear, when that is not refused. -/
def clear (x : Exchange) : Session :=
  Session.message x.cfg.inClear x.server x.peer (command x.stdin) (Session.accepted x.process)

/-- Both ends have the key file, and it covers the command, a text of 7 bits; the server has room
for the zero behind its letters. -/
structure Shares (x : Exchange) (kf : Str) (f : Keyfile) (of : ℤ) : Prop where
  client : x.client.keyfile kf = some f
  server : x.server.keyfile kf = some f
  text : ∀ p ∈ command x.stdin, p.toNat ≤ 127
  covers : f.Covers of (command x.stdin).length
  fits : of + 2 * (command x.stdin).length ≤ 2147483647
  room : x.server.roomD (2 * (command x.stdin).length) = true

theorem one_le_of_mem_command {stdin : Str} {p : UInt8} (hp : p ∈ command stdin) :
    1 ≤ p.toNat := by
  rw [← cStr_command] at hp
  have hne : p ≠ 0 := by simpa using List.mem_takeWhile_imp hp
  by_contra h0
  exact hne (UInt8.toNat_inj.1 (by simpa using h0))

theorem Shares.text_mem (h : x.Shares kf f of) :
    ∀ p ∈ command x.stdin, 1 ≤ p.toNat ∧ p.toNat ≤ 127 :=
  fun p hp => ⟨one_le_of_mem_command hp, h.text p hp⟩

/-- The server decrypts what was typed. -/
theorem Shares.decode (h : x.Shares kf f of) (hpt : x.encrypt kf of = .ok (0, pt))
    (hroot : x.server.parse (Session.envelope ⟨kf, of⟩ pt) = .ok root)
    (hr : root.Envelops ⟨kf, of⟩ pt) :
    x.server.decode (Session.envelope ⟨kf, of⟩ pt) =
      x.server.opened ⟨kf, of + 2 * (command x.stdin).length⟩ (command x.stdin) :=
  Host.decode_sealed h.server h.text_mem h.covers h.fits h.room h.client hpt hroot hr

/-- `XML_Parse` reads the message back. -/
def Understood (x : Exchange) (kf : Str) (of : ℤ) : Prop :=
  ∀ pt, x.encrypt kf of = .ok (0, pt) → ∃ root,
    x.server.parse (Session.envelope ⟨kf, of⟩ pt) = .ok root ∧ root.Envelops ⟨kf, of⟩ pt

/-- The client encrypts the command, and the message has the effect of the command in clear: what
`otp_only` forbids in clear is what it allows encrypted, and an answer that cannot be encrypted
makes no difference. -/
theorem served_effect (h : x.Shares kf f of) (hroot : x.Understood kf of)
    (hname : ∀ y, x.server.parse (command x.stdin) = .ok y → y.name ≠ str "otp") :
    ∃ pt, x.encrypt kf of = .ok (0, pt) ∧
      Session.SameEffect (x.served (Session.envelope ⟨kf, of⟩ pt)) x.clear := by
  obtain ⟨pt, hpt⟩ := exists_otpE h.client h.covers h.text_mem x.client.junkE
  obtain ⟨root, hroot, hr⟩ := hroot pt hpt
  exact ⟨pt, hpt, Session.message_effect (Session.find_envelope _ _) (h.decode hpt hroot hr) hname _⟩

/-- The typed `<quit />` for a process that sleeps, under a key of zeros; the client knows the
answer to it. -/
def quitCommand : Str := str "<quit />"

def quitAnswer : Str :=
  str "<peter>\n  <scheduler name=\"default\">quitting</scheduler>\n</peter>\n"

def quitCall : Exchange where
  client := sealedHost 16 quitAnswer []
  server := sealedHost 0 quitCommand [Session.plainQuit]
  cfg := Session.localOnly
  peer := Session.localhost
  process := .configured [.sleeper]
  stdin := quitCommand ++ str "\n"
  stdin_ne_nil := by simp [quitCommand, str]
  ending := .whole false

/-- A key file of zeros. -/
theorem covers_zeros {m n : ℕ} {of : ℤ} (hof : 0 ≤ of) (hn : of.toNat + n ≤ m) :
    Keyfile.Covers { bytes := List.replicate m 0 } of n := by
  refine ⟨hof, rfl, by simpa using hn, fun k hk => ?_⟩
  rw [List.eq_of_mem_replicate (List.mem_of_mem_drop (List.mem_of_mem_take hk))]
  decide

theorem quitCall_shares : quitCall.Shares oneMeg { bytes := List.replicate 256 0 } 0 :=
  ⟨rfl, rfl, by decide, covers_zeros (by decide) (by decide), by decide, by decide⟩

theorem quitCall_encrypt : quitCall.encrypt oneMeg 0 = .ok (0, zeroLetters quitCommand) := by rfl

theorem quitCall_root : ∃ root, quitCall.server.parse (sealedText 0 quitCommand) = .ok root ∧
    root.Envelops ⟨oneMeg, 0⟩ (zeroLetters quitCommand) :=
  ⟨_, sealedHost_parse (by decide) _, sealedElement_envelops (by decide) (by decide) _⟩

theorem quitCall_understood : quitCall.Understood oneMeg 0 := by
  intro pt hpt
  obtain ⟨-, rfl⟩ := Prod.mk.inj (Except.ok.inj (quitCall_encrypt.symm.trans hpt))
  exact quitCall_root

theorem quitCall_parse : quitCall.server.parse (command quitCall.stdin) =
    .ok ⟨str "quit", [], .leaf, [], []⟩ := by rfl

theorem quitCall_name {y : XMLNode} (hy : quitCall.server.parse (command quitCall.stdin) = .ok y) :
    y.name = str "quit" := by
  obtain rfl := Except.ok.inj (quitCall_parse.symm.trans hy)
  rfl

theorem served_effect_quit :
    quitCall.clear.acts = [(.quit 0, quitCommand)] ∧ ∃ pt, quitCall.encrypt oneMeg 0 = .ok (0, pt) ∧
      Session.SameEffect (quitCall.served (Session.envelope ⟨oneMeg, 0⟩ pt)) quitCall.clear := by
  refine ⟨by rfl, served_effect quitCall_shares quitCall_understood fun y hy => ?_⟩
  rw [quitCall_name hy]
  decide

/-! ## What is shown -/

/-- The client prints what the command in clear is answered with. -/
def Transparent (x : Exchange) (msg : Str) : Prop :=
  x.client.printed (x.served msg).answer = .ok x.clear.answer

/-- What the dispatcher makes of the command `y`. -/
def result (x : Exchange) (y : XMLNode) : Str :=
  (Session.dispatch x.cfg x.server (command x.stdin) y (Session.accepted x.process)).1.toStr

/-- The key file covers the result behind the places of the command, and it has 7 bits; the client
has room for the zero behind its letters. -/
def Answerable (x : Exchange) (f : Keyfile) (of : ℤ) : Prop :=
  ∀ y, x.server.parse (command x.stdin) = .ok y →
    (∀ p ∈ x.result y, 1 ≤ p.toNat ∧ p.toNat ≤ 127) ∧
      f.Covers (of + 2 * (command x.stdin).length) (x.result y).length ∧
      x.client.roomD (2 * (x.result y).length) = true

/-- The peer may have the command carried out, and nothing is sent before its answer. -/
def Alone (x : Exchange) : Prop :=
  x.cfg.peerAllowed x.peer = true ∧ ∃ y, x.server.parse (command x.stdin) = .ok y ∧
    x.cfg.cmdAllowed y.name = true ∧ ∀ i, ¬y.Discloses x.process i

/-- An exchange that is not `Alone` gets an answer that is no reply, and in clear another one. -/
theorem not_alone_answers (hdecode : x.server.decode (Session.envelope ⟨kf, of⟩ pt) =
      x.server.opened ⟨kf, of + 2 * (command x.stdin).length⟩ (command x.stdin))
    (hsend : ∀ n, x.server.sendOk n = true)
    (hname : ∀ y, x.server.parse (command x.stdin) = .ok y → y.name ≠ str "otp")
    (hno : ¬x.Alone) :
    Session.Unsealed (x.served (Session.envelope ⟨kf, of⟩ pt)).answer ∧
      (Session.Clear x.clear.answer ∨
        (x.served (Session.envelope ⟨kf, of⟩ pt)).answer = [] ∧ x.clear.answer = []) := by
  have hcmd : (find (Session.envelope ⟨kf, of⟩ pt) (str "<otp ") 0).isSome :=
    Session.find_envelope _ _
  have hotp := Session.inClear_otp x.cfg (command x.stdin)
  unfold served clear
  cases hpeer : x.cfg.peerAllowed x.peer with
  | false =>
    rw [Session.message_of_no_access (fun _ => hcmd) hpeer, Session.message_of_no_access hotp hpeer]
    have hclear := Session.clear_answer_error (hsend 1) x.process (str "no access")
    exact ⟨.inr (.inr hclear), .inl hclear⟩
  | true =>
    unfold Host.opened at hdecode
    cases hparse : x.server.parse (command x.stdin) with
    | ok y =>
      have hbad : x.cfg.cmdAllowed y.name = false ∨ ∃ i, y.Discloses x.process i := by
        by_contra hgood
        simp only [not_or, Bool.not_eq_false, not_exists] at hgood
        exact hno ⟨hpeer, y, hparse, hgood⟩
      simp only [hparse] at hdecode
      rw [Session.message_of_accepts ⟨fun _ => hcmd, hpeer, hdecode⟩, Session.message_of_accepts
        ⟨hotp, hpeer, Session.decode_of_plain hparse (hname y hparse)⟩]
      have hbad' : x.cfg.inClear.cmdAllowed y.name = false ∨ ∃ i, y.Discloses x.process i := hbad
      exact ⟨.inr (.inr (Session.clear_answer_execute hsend _ _ hbad)),
        .inl (Session.clear_answer_execute hsend _ _ hbad')⟩
    | error fault =>
      cases fault with
      | parseError =>
        simp only [hparse] at hdecode
        have hclear : x.server.decode (command x.stdin) = .parseError false := by
          simp only [Host.decode, hparse]
        rw [Session.message_of_parseError (fun _ => hcmd) hpeer hdecode,
          Session.message_of_parseError hotp hpeer hclear]
        exact ⟨.inl rfl, .inl (Session.clear_answer_error (hsend 1) x.process (str "XML error"))⟩
      | undefined =>
        simp only [hparse] at hdecode
        have hclear : x.server.decode (command x.stdin) = .halt .undefined := by
          simp only [Host.decode, hparse]
        rw [Session.message_of_halt (fun _ => hcmd) hpeer hdecode,
          Session.message_of_halt hotp hpeer hclear]
        exact ⟨.inl rfl, .inr ⟨rfl, rfl⟩⟩

theorem reply_eq {msg cy : Str} {k : OtpKey}
    (haccepts : x.cfg.Accepts x.server x.peer msg (some k) (command x.stdin) y)
    (hyes : x.cfg.cmdAllowed y.name = true)
    (hcy : otpE x.server.keyfile x.server.junkE k.keyfile k.offset (x.result y) = .ok (0, cy)) :
    x.reply msg = some ⟨k, x.result y, cy⟩ := by
  unfold reply
  rw [Session.encrypted_eq_some]
  exact ⟨command x.stdin, y, haccepts, hyes, rfl, hcy⟩

/-- What is shown of the reply to a command that is answered alone. -/
theorem Alone.transparent (h : x.Alone) (hs : x.Shares kf f of) (hreads : x.Reads kf of pt)
    (hdecode : x.server.decode (Session.envelope ⟨kf, of⟩ pt) =
      x.server.opened ⟨kf, of + 2 * (command x.stdin).length⟩ (command x.stdin))
    (hsend : ∀ n, x.server.sendOk n = true)
    (hname : ∀ y, x.server.parse (command x.stdin) = .ok y → y.name ≠ str "otp")
    (hresult : x.Answerable f of) : x.Transparent (Session.envelope ⟨kf, of⟩ pt) := by
  obtain ⟨hpeer, y, hparse, hyes, halone⟩ := h
  obtain ⟨h7, hcovers, hroom⟩ := hresult y hparse
  unfold Host.opened at hdecode
  simp only [hparse] at hdecode
  obtain ⟨cy, hcy⟩ := exists_otpE hs.server hcovers h7 x.server.junkE
  obtain ⟨-, hres⟩ := otpD_of_otpE hs.server hs.client hcovers h7 hroom hcy
  obtain ⟨k, hk⟩ : ∃ k : OtpKey, k = ⟨kf, of + 2 * (command x.stdin).length⟩ := ⟨_, rfl⟩
  have hkeyfile : k.keyfile = kf := by rw [hk]
  have hoffset : k.offset = of + 2 * (command x.stdin).length := by rw [hk]
  rw [← hk] at hdecode
  rw [← hkeyfile, ← hoffset] at hcy
  have hcmd : (find (Session.envelope ⟨kf, of⟩ pt) (str "<otp ") 0).isSome :=
    Session.find_envelope _ _
  have he := reply_eq ⟨fun _ => hcmd, hpeer, hdecode⟩ hyes hcy
  have hanswer : (x.served (Session.envelope ⟨kf, of⟩ pt)).answer = Session.envelope k cy := by
    have hcommand : ∀ text y', x.server.decode (Session.envelope ⟨kf, of⟩ pt) =
        .command (some k) text y' → ∀ i, ¬y'.Discloses x.process i := by
      intro text y' hy'
      obtain ⟨-, -, rfl⟩ := Decoded.command.inj (hdecode.symm.trans hy')
      exact halone
    have h := Session.answer_of_encrypted he hcommand (hsend 1)
    exact h
  have hclear : x.clear.answer = x.result y := by
    have hyes' : x.cfg.inClear.cmdAllowed y.name = true := hyes
    unfold clear
    rw [Session.message_of_accepts ⟨Session.inClear_otp x.cfg (command x.stdin), hpeer,
      Session.decode_of_plain hparse (hname y hparse)⟩]
    exact Session.answer_of_plain (hsend 1) hyes' halone _
  obtain ⟨r, hr, henvelops⟩ := hreads.reply _ he
  have hnonneg := hs.covers.nonneg
  have hfits := hs.fits
  have hint : toInt k.offset = of + 2 * (command x.stdin).length := by
    rw [hoffset, toInt_of_mem (by omega) hfits]
  unfold Transparent
  rw [hanswer, hclear]
  apply Host.printed_envelope hr henvelops
  rw [hint, hkeyfile]
  exact hres

/-- With a key file that both ends have and that is long enough, the client prints what the command
in clear is answered with if and only if the command is allowed and answered alone.  Errors that are
sent in clear are not printed, and a command that is no XML is not answered. -/
theorem transparent_iff (hs : x.Shares kf f of) (hpt : x.encrypt kf of = .ok (0, pt))
    (hroot : x.Understood kf of) (hreads : x.Reads kf of pt) (hsend : ∀ n, x.server.sendOk n = true)
    (hname : ∀ y, x.server.parse (command x.stdin) = .ok y → y.name ≠ str "otp")
    (hresult : x.Answerable f of) :
    x.Transparent (Session.envelope ⟨kf, of⟩ pt) ↔ x.Alone := by
  obtain ⟨root, hroot, hr⟩ := hroot pt hpt
  have hdecode := hs.decode hpt hroot hr
  constructor
  · intro htransparent
    by_contra hno
    obtain ⟨hunsealed, hclear | ⟨hnil, hnil'⟩⟩ := not_alone_answers hdecode hsend hname hno
    · exact Host.printed_ne_of_name_ne (fun y hy => (hreads.clear y hy).name_ne hunsealed) hclear
        htransparent
    · unfold Transparent at htransparent
      rw [hnil, hnil', Host.printed_nil] at htransparent
      cases htransparent
  · intro halone
    exact halone.transparent hs hreads hdecode hsend hname hresult

theorem quitCall_result : quitCall.result ⟨str "quit", [], .leaf, [], []⟩ = quitAnswer := by rfl

theorem quitCall_decode : quitCall.server.decode (sealedText 0 quitCommand) =
    .command (some ⟨oneMeg, 16⟩) quitCommand ⟨str "quit", [], .leaf, [], []⟩ := by
  obtain ⟨root, hroot, hr⟩ := quitCall_root
  have hdecode := quitCall_shares.decode quitCall_encrypt hroot hr
  simp only [Host.opened, quitCall_parse] at hdecode
  exact hdecode

theorem quitCall_reply : quitCall.reply (sealedText 0 quitCommand) =
    some ⟨⟨oneMeg, 16⟩, quitAnswer, zeroLetters quitAnswer⟩ := by
  have hletters : otpE quitCall.server.keyfile quitCall.server.junkE oneMeg 16 quitAnswer =
      .ok (0, zeroLetters quitAnswer) := by rfl
  rw [← quitCall_result] at hletters ⊢
  exact reply_eq ⟨fun _ => Session.find_envelope _ _, by decide, quitCall_decode⟩ (by decide)
    hletters

theorem quitCall_alone : quitCall.Alone := by
  refine ⟨by decide, _, quitCall_parse, by decide, ?_⟩
  rintro i ⟨⟨hname, -⟩, -⟩
  exact absurd hname (by decide)

theorem quitCall_reads : quitCall.Reads oneMeg 0 (zeroLetters quitCommand) := by
  obtain ⟨root, hroot, hr⟩ := quitCall_root
  have hcommand : ∀ text y, quitCall.server.decode (sealedText 0 quitCommand) =
      .command (some ⟨oneMeg, 16⟩) text y → ∀ i, ¬y.Discloses quitCall.process i := by
    intro text y hy i
    obtain ⟨-, -, rfl⟩ := Decoded.command.inj (quitCall_decode.symm.trans hy)
    rintro ⟨⟨hname, -⟩, -⟩
    exact absurd hname (by decide)
  have hanswer := Session.answer_of_encrypted quitCall_reply hcommand rfl
  exact reads_of_replied hroot hr quitCall_reply hanswer (sealedHost_parse (by decide) _)
    (sealedElement_envelops (by decide) (by decide) _)

theorem transparent_iff_quit :
    quitCall.clear.answer = quitAnswer ∧ quitCall.Transparent (sealedText 0 quitCommand) := by
  refine ⟨by rfl, (transparent_iff quitCall_shares quitCall_encrypt quitCall_understood
    quitCall_reads
    (fun _ => rfl) (fun y hy => ?_) fun y hy => ?_).2 quitCall_alone⟩
  · rw [quitCall_name hy]
    decide
  · obtain rfl := Except.ok.inj (quitCall_parse.symm.trans hy)
    rw [quitCall_result]
    exact ⟨by decide +kernel, covers_zeros (by decide) (by decide), by decide⟩

end Exchange

end Peter
