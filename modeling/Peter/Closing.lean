import Peter.Access
import Peter.Lookups

/-!
# The end of a connection

Every way through one iteration of the socket thread should close the client once and send nothing
after that.  `message_halt_cases` goes through the handling of a message: it closes the client, or
undefined behaviour ends it, or `stol` throws over an offset that is no number.  `survived_iff` and
`closedOnce_iff` are the conditions for a message and for a whole connection.
-/

namespace Peter

open History

/-! ## What stops a message -/

theorem otpEChar_error {otp : ℕ → UInt8} {pt : Str} {i : ℕ} {halt : Halt}
    (h : otpEChar otp pt i = .error halt) : halt = .undefined := by
  rw [otpEChar_eq] at h
  cases hl : (eLookups otp pt i).mapM fun x => lookup lAdd x.1 x.2 with
  | error e =>
    rw [hl] at h
    cases h
    exact mapM_lookup_eq_error hl
  | ok cs =>
    rw [hl] at h
    cases h

theorem otpDChar_error {otp : ℕ → UInt8} {ct : Str} {j : ℕ} {halt : Halt}
    (h : otpDChar otp ct j = .error halt) : halt = .undefined := by
  rw [otpDChar_eq otp ct 0 j] at h
  split at h
  · cases hl : (dLookups otp ct j).mapM fun x => lookup lSub x.1 x.2 with
    | error e =>
      rw [hl] at h
      cases h
      exact mapM_lookup_eq_error hl
    | ok cs =>
      rw [hl] at h
      cases h
  · cases h
    rfl

theorem otpE_error {keyfile : Str → Option Keyfile} {junk : ℕ → UInt8} {kf pt : Str} {of : ℤ}
    {halt : Halt} (h : otpE keyfile junk kf of pt = .error halt) : halt = .undefined := by
  unfold otpE at h
  cases hf : keyfile kf with
  | none =>
    rw [hf] at h
    cases h
  | some f =>
    rw [hf] at h
    dsimp only at h
    split at h
    · cases h
    · cases hc : otpEChar (buffer junk (f.read of pt.length).1) (cStr pt) 0 with
      | error e =>
        rw [hc] at h
        cases h
        exact otpEChar_error hc
      | ok cy =>
        rw [hc] at h
        cases h

theorem otpD_error {keyfile : Str → Option Keyfile} {junk : ℕ → UInt8} {room : ℕ → Bool}
    {kf cy : Str} {of : ℤ} {halt : Halt} (h : otpD keyfile junk room kf of cy = .error halt) :
    halt = .undefined := by
  unfold otpD at h
  cases hf : keyfile kf with
  | none =>
    rw [hf] at h
    cases h
  | some f =>
    rw [hf] at h
    dsimp only at h
    split at h
    · cases h
      rfl
    cases hc : otpDChar (buffer junk (f.read of cy.length).1) (cy ++ [0]) 0 with
    | error e =>
      rw [hc] at h
      cases h
      exact otpDChar_error hc
    | ok pt =>
      rw [hc] at h
      cases h

/-- The root is an `<otp>` element whose offset `stol` throws over. -/
def Host.BadOffset (h : Host) (cmd : Str) : Prop :=
  ∃ x, h.parse cmd = .ok x ∧ x.name = str "otp" ∧
    stol (x.getAttribute (str "offset") (str "0")) = none

theorem decrypt_halt {h : Host} {x : XMLNode} {halt : Halt} (hd : h.decrypt x = .halt halt) :
    halt = .undefined ∨
      halt = .terminated ∧ stol (x.getAttribute (str "offset") (str "0")) = none := by
  unfold Host.decrypt at hd
  cases hof : stol (x.getAttribute (str "offset") (str "0")) with
  | none =>
    rw [hof] at hd
    cases hd
    exact Or.inr ⟨rfl, rfl⟩
  | some of =>
    rw [hof] at hd
    dsimp only at hd
    cases hres : otpD h.keyfile h.junkD h.roomD (x.getAttribute (str "keyfile") (str "otp.txt")) of
        x.contents with
    | error e =>
      rw [hres] at hd
      cases hd
      exact Or.inl (otpD_error hres)
    | ok r =>
      obtain ⟨res, pt⟩ := r
      rw [hres] at hd
      dsimp only at hd
      cases hp : h.parse pt with
      | error e =>
        rw [hp] at hd
        cases e with
        | parseError => cases hd
        | undefined =>
          cases hd
          exact Or.inl rfl
      | ok x' =>
        rw [hp] at hd
        cases hd

/-- Decoding ends in undefined behaviour or, over a bad offset, in an exception that nothing
catches. -/
theorem decode_halt {h : Host} {cmd : Str} {halt : Halt} (hd : h.decode cmd = .halt halt) :
    halt = .undefined ∨ halt = .terminated ∧ h.BadOffset cmd := by
  unfold Host.decode at hd
  cases hp : h.parse cmd with
  | error e =>
    rw [hp] at hd
    cases e with
    | parseError => cases hd
    | undefined =>
      cases hd
      exact Or.inl rfl
  | ok x =>
    rw [hp] at hd
    dsimp only at hd
    split at hd
    · rename_i hname
      exact (decrypt_halt hd).imp_right fun hbad => ⟨hbad.1, x, hp, hname, hbad.2⟩
    · cases hd

theorem decode_of_badOffset {h : Host} {cmd : Str} (hbad : h.BadOffset cmd) :
    h.decode cmd = .halt .terminated := by
  obtain ⟨x, hp, hname, hof⟩ := hbad
  unfold Host.decode Host.decrypt
  rw [hp]
  dsimp only
  rw [if_pos hname, hof]

/-- The `<otp>` element is decrypted without a read, a write or a lookup outside, and the parser
ends in a defined way on its text. -/
structure Host.Opens (h : Host) (x : XMLNode) (of : ℤ) : Prop where
  decrypts : Decrypts h.keyfile h.junkD h.roomD (x.getAttribute (str "keyfile") (str "otp.txt")) of
    x.contents
  parse : ∀ res pt, otpD h.keyfile h.junkD h.roomD
    (x.getAttribute (str "keyfile") (str "otp.txt")) of x.contents = .ok (res, pt) →
      h.parse pt ≠ .error .undefined

/-- The parser ends in a defined way on the message, and an `<otp>` element at its root has an
offset that `stol` takes and is decrypted. -/
structure Host.Decodes (h : Host) (cmd : Str) : Prop where
  parse : h.parse cmd ≠ .error .undefined
  otp : ∀ x, h.parse cmd = .ok x → x.name = str "otp" →
    ∃ of, stol (x.getAttribute (str "offset") (str "0")) = some of ∧ h.Opens x of

theorem Host.opens_iff (h : Host) (x : XMLNode) :
    (∃ of, stol (x.getAttribute (str "offset") (str "0")) = some of ∧ h.Opens x of) ↔
      ∀ halt, h.decrypt x ≠ .halt halt := by
  unfold Host.decrypt
  cases hof : stol (x.getAttribute (str "offset") (str "0")) with
  | none => simp
  | some of =>
    simp only [Option.some.injEq, exists_eq_left']
    have hdef := exists_otpD_iff h.keyfile h.junkD h.roomD
      (x.getAttribute (str "keyfile") (str "otp.txt")) of x.contents
    cases hd : otpD h.keyfile h.junkD h.roomD (x.getAttribute (str "keyfile") (str "otp.txt")) of
        x.contents with
    | error e =>
      rw [hd] at hdef
      refine iff_of_false (fun ho => ?_) (by simp)
      obtain ⟨r, hr⟩ := hdef.2 ho.decrypts
      cases hr
    | ok r =>
      rw [hd] at hdef
      have hparse : h.Opens x of ↔ h.parse r.2 ≠ .error .undefined := by
        constructor
        · exact fun ho => ho.parse r.1 r.2 hd
        · refine fun hp => ⟨hdef.1 ⟨r, rfl⟩, fun res pt hr => ?_⟩
          rw [hd] at hr
          cases hr
          exact hp
      rw [hparse]
      dsimp only
      cases h.parse r.2 with
      | error e => cases e <;> simp
      | ok x' => simp

/-- Decoding has an end that the `catch` knows. -/
theorem Host.decodes_iff (h : Host) (cmd : Str) :
    h.Decodes cmd ↔ ∀ halt, h.decode cmd ≠ .halt halt := by
  unfold Host.decode
  cases hp : h.parse cmd with
  | error e =>
    cases e with
    | parseError => exact iff_of_true ⟨by simp [hp], fun x hx => by simp [hp] at hx⟩ (by simp)
    | undefined => exact iff_of_false (fun hd => hd.parse hp) (by simp)
  | ok x =>
    have hroot : h.Decodes cmd ↔ (x.name = str "otp" →
        ∃ of, stol (x.getAttribute (str "offset") (str "0")) = some of ∧ h.Opens x of) := by
      constructor
      · exact fun hd => hd.otp x hp
      · refine fun ho => ⟨by simp [hp], fun x' hx' => ?_⟩
        rw [hp] at hx'
        cases hx'
        exact ho
    rw [hroot]
    dsimp only
    split_ifs with hname
    · rw [imp_iff_right hname]
      exact h.opens_iff x
    · exact iff_of_true (fun hyes => absurd hyes hname) (by simp)

/-! ## The calls on the socket -/

/-- The client was closed once, by the last call on its socket. -/
def ClosedOnce (c : Session) : Prop := ∃ pre, c.io = pre ++ [.close] ∧ .close ∉ pre

namespace Session

variable {cfg : Config} {h : Host} {σ : Process} {c : Session} {peer cmd text : Str} {x : XMLNode}

/-- The thread goes on, and the client is not closed. -/
structure Open (c : Session) : Prop where
  halt : c.halt = none
  io : .close ∉ c.io

theorem Open.closedOnce (hc : c.Open) : ClosedOnce c.close := ⟨c.io, rfl, hc.io⟩

theorem Open.send (hc : c.Open) (h : Host) (text : Str) : (c.send h text).2.Open :=
  ⟨hc.halt, by simpa [Session.send] using hc.io⟩

theorem accepted_open (σ : Process) : (accepted σ).Open := ⟨rfl, by simp [accepted]⟩

theorem command_halt (i : ℕ) (cmd : Str) (c : Session) :
    (command h text i cmd c).2.halt = c.halt := by
  unfold command
  split_ifs <;> rfl

theorem addNamed_halt (wType : WType) (name : Str) (a : Act) (i : ℕ) (c : Session) :
    (addNamed h text wType name a i c).2.halt = c.halt := by
  unfold addNamed
  cases (c.process.thread i).s.getProgramByName name <;> rfl

theorem sendInfos_halt (i : ℕ) (ps : List ProgPtr) (c : Session) :
    (sendInfos h text i ps c).halt = c.halt := by
  induction ps generalizing c with
  | nil => rfl
  | cons p ps ih =>
    rcases sendInfos_cons h text i p ps c with hrest | hrest <;> rw [hrest]
    · exact (ih _).trans rfl
    · rfl

theorem commandFd_halt (i : ℕ) (cmd : Str) (c : Session) :
    (commandFd h text i cmd c).halt = c.halt := by
  unfold commandFd
  split_ifs
  · exact sendInfos_halt i _ c
  · rfl
  · rfl

theorem dispatch_halt (cfg : Config) (h : Host) (text : Str) (x : XMLNode) (c : Session) :
    (dispatch cfg h text x c).2.halt = c.halt := by
  have hcommand : ∀ cmd, (forSchedulers (fun i => command h text i cmd)
      { name := str "peter" } c).2.halt = c.halt := fun cmd =>
    forSchedulers_frame halt (fun i c => command_halt i cmd c) _ c
  unfold dispatch
  split_ifs
  · rfl
  · cases c.process.getScheduler (x.nameAttribute (str "default")) with
    | none => rfl
    | some i =>
      apply List.foldlRecOn (motive := fun c' : Session => c'.halt = c.halt) _ _ rfl
      exact fun c' hc' child _ => (commandFd_halt i child.name c').trans hc'
  · exact hcommand (str "info")
  · exact hcommand (str "quit")
  · exact forSchedulers_frame halt (fun i c => addNamed_halt _ _ _ i c) _ c
  · exact forSchedulers_frame halt (fun i c => addNamed_halt _ _ _ i c) _ c
  · exact hcommand (str "log")
  · rfl

/-- The dispatcher leaves the client open. -/
theorem dispatch_open (cfg : Config) (text : Str) (x : XMLNode) (hf : c.Follows h.now σ)
    (hc : c.Open) : (dispatch cfg h text x c).2.Open := by
  obtain ⟨new, hnew, hsend⟩ := dispatch_io cfg text x hf
  refine ⟨(dispatch_halt cfg h text x c).trans hc.halt, ?_⟩
  rw [hnew, List.mem_append, not_or]
  refine ⟨hc.io, fun hmem => ?_⟩
  obtain ⟨i, ⟨p, ok, he⟩, -⟩ := hsend _ hmem
  cases he

/-- How the handling of a message ends. -/
inductive Outcome (bad : Prop) (c : Session) : Prop
  | closed (halt : c.halt = none) (io : ClosedOnce c)
  | undefined (halt : c.halt = some .undefined)
  | thrown (halt : c.halt = some .terminated) (io : .close ∉ c.io) (hbad : bad)

theorem Open.outcome_send (hc : c.Open) (bad : Prop) (h : Host) (text : Str) :
    Outcome bad (c.send h text).2.close :=
  .closed hc.halt (hc.send h text).closedOnce

theorem Open.outcome_reply (hc : c.Open) (bad : Prop) (h : Host) (key : Option OtpKey)
    (tmp : Str) : Outcome bad (c.reply h key tmp) := by
  unfold reply
  cases key with
  | none => exact hc.outcome_send bad h tmp
  | some k =>
    cases he : otpE h.keyfile h.junkE k.keyfile k.offset tmp with
    | error halt =>
      obtain rfl := otpE_error he
      simp only [he]
      exact .undefined rfl
    | ok r =>
      simp only [he]
      exact hc.outcome_send bad h _

theorem execute_outcome (bad : Prop) (cfg : Config) (key : Option OtpKey) (text : Str) (x : XMLNode)
    (hf : c.Follows h.now σ) (hc : c.Open) : Outcome bad (execute cfg h key text x c) := by
  unfold execute
  split_ifs
  · exact hc.outcome_send bad h _
  · exact (dispatch_open cfg text x hf hc).outcome_reply bad h key _

/-- The message passes the checks before it is decoded, and `stol` throws over its offset. -/
structure Throws (cfg : Config) (h : Host) (peer cmd : Str) : Prop where
  otp : cfg.otpOnly = true → (find cmd (str "<otp ") 0).isSome
  peer : cfg.peerAllowed peer = true
  badOffset : h.BadOffset cmd

/-- The handling of a message closes the client, has no defined behaviour, or throws. -/
theorem message_outcome (cfg : Config) (h : Host) (peer cmd : Str) (σ : Process) :
    Outcome (Throws cfg h peer cmd) (message cfg h peer cmd (accepted σ)) := by
  have hopen := accepted_open σ
  unfold message
  split_ifs with hotp hpeer
  · exact .closed rfl hopen.closedOnce
  · exact hopen.outcome_send _ h _
  · cases hdecode : h.decode cmd with
    | command key text x =>
      exact execute_outcome _ cfg key text x (accepted_follows σ h.now) hopen
    | parseError otpMode =>
      cases otpMode with
      | true => exact .closed rfl hopen.closedOnce
      | false => exact hopen.outcome_send _ h _
    | halt halt =>
      rcases decode_halt hdecode with rfl | ⟨rfl, hbad⟩
      · exact .undefined rfl
      · refine .thrown rfl hopen.io ⟨fun hb => ?_, by simpa using hpeer, hbad⟩
        simpa [hb, Option.isSome_iff_ne_none] using hotp

theorem message_of_throws {cfg : Config} (hthrows : Throws cfg h peer cmd) (c : Session) :
    message cfg h peer cmd c = c.stop .terminated := by
  unfold message
  rw [otpOnly_eq_false hthrows.otp, hthrows.peer, decode_of_badOffset hthrows.badOffset]
  rfl

/-! ## Messages -/

/-- The thread goes on, and it has closed the client, once. -/
structure Survived (c : Session) : Prop where
  halt : c.halt = none
  closed : ClosedOnce c

theorem Open.survived_send (hc : c.Open) (h : Host) (text : Str) :
    Survived (c.send h text).2.close := ⟨hc.halt, (hc.send h text).closedOnce⟩

theorem not_survived_stop (c : Session) (halt : Halt) : ¬Survived (c.stop halt) :=
  fun hs => Option.some_ne_none halt hs.halt

/-- An answer is survived when it is not encrypted or its encryption has a result. -/
theorem Open.survived_reply_iff (hc : c.Open) (h : Host) (key : Option OtpKey) (tmp : Str) :
    Survived (c.reply h key tmp) ↔
      ∀ k, key = some k → Encrypts h.keyfile k.keyfile k.offset tmp := by
  unfold reply
  cases key with
  | none => exact iff_of_true (hc.survived_send h tmp) fun k hk => by cases hk
  | some k =>
    have hdef := exists_otpE_iff h.keyfile h.junkE k.keyfile k.offset tmp
    simp only [Option.some.injEq, forall_eq', ← hdef]
    cases otpE h.keyfile h.junkE k.keyfile k.offset tmp with
    | error halt => exact iff_of_false (not_survived_stop c halt) (by simp)
    | ok r => exact iff_of_true (hc.survived_send h _) ⟨r, rfl⟩

/-- The printed result of a command. -/
def resultText (cfg : Config) (h : Host) (text : Str) (x : XMLNode) (σ : Process) : Str :=
  (dispatch cfg h text x (accepted σ)).1.toStr

theorem survived_execute_iff (cfg : Config) (h : Host) (key : Option OtpKey) (text : Str)
    (x : XMLNode) (σ : Process) :
    Survived (execute cfg h key text x (accepted σ)) ↔
      (cfg.cmdAllowed x.name = true →
        ∀ k, key = some k → Encrypts h.keyfile k.keyfile k.offset (resultText cfg h text x σ)) := by
  have hopen := accepted_open σ
  have hdispatch := dispatch_open cfg text x (accepted_follows σ h.now) hopen
  unfold execute
  cases hallowed : cfg.cmdAllowed x.name with
  | false => exact iff_of_true (hopen.survived_send h _) fun hno => by cases hno
  | true =>
    rw [imp_iff_right rfl]
    exact hdispatch.survived_reply_iff h key _

/-- A message of an allowed peer is survived when it is turned away before it is decoded, or when it
decodes with a defined end, the offset of its `<otp>` element being a number that fits a `long`, and
the answer to an allowed command in it is encrypted with a defined end. -/
theorem survived_iff (cfg : Config) (h : Host) (peer cmd : Str) (σ : Process)
    (hpeer : cfg.peerAllowed peer = true) :
    Survived (message cfg h peer cmd (accepted σ)) ↔
      (cfg.otpOnly = true ∧ find cmd (str "<otp ") 0 = none) ∨
        h.Decodes cmd ∧ ∀ key text x, h.decode cmd = .command (some key) text x →
          cfg.cmdAllowed x.name = true →
            Encrypts h.keyfile key.keyfile key.offset (resultText cfg h text x σ) := by
  have hopen := accepted_open σ
  by_cases hotp : cfg.otpOnly = true ∧ find cmd (str "<otp ") 0 = none
  · unfold message
    rw [if_pos (by simp [hotp])]
    exact iff_of_true ⟨rfl, hopen.closedOnce⟩ (Or.inl hotp)
  · have hpass : ((find cmd (str "<otp ") 0).isNone && cfg.otpOnly) = false := by
      rw [Bool.eq_false_iff]
      simpa [and_comm] using hotp
    have hdecodes := Host.decodes_iff h cmd
    unfold message
    rw [hpass, hpeer, or_iff_right hotp]
    cases hdecode : h.decode cmd with
    | command key text x =>
      have hyes : h.Decodes cmd := hdecodes.2 fun halt hhalt => by
        rw [hdecode] at hhalt
        cases hhalt
      rw [and_iff_right hyes]
      constructor
      · rintro hs key' text' x' heq hallowed
        cases heq
        exact (survived_execute_iff cfg h _ text x σ).1 hs hallowed key' rfl
      · intro henc
        refine (survived_execute_iff cfg h key text x σ).2 fun hallowed k hk => ?_
        subst hk
        exact henc k text x rfl hallowed
    | parseError otpMode =>
      have hyes : h.Decodes cmd := hdecodes.2 fun halt hhalt => by
        rw [hdecode] at hhalt
        cases hhalt
      refine iff_of_true ?_ ⟨hyes, fun key text x heq => by cases heq⟩
      cases otpMode with
      | true => exact ⟨rfl, hopen.closedOnce⟩
      | false => exact hopen.survived_send h _
    | halt halt =>
      exact iff_of_false (not_survived_stop _ halt) fun hyes => hdecodes.1 hyes.1 halt hdecode

/-- An `<otp>` element around some contents. -/
def otpDocument (offset : String) (contents : Str) : Str × XMLNode :=
  (str "<otp offset=\"" ++ str offset ++ str "\">" ++ contents ++ str "</otp>",
    { name := str "otp", attributes := [(str "offset", str offset)], contents })

/-- A sealed `<quit />` is carried out and answered. -/
theorem survived_iff_sealedQuit :
    Survived (message localOnly (keyHost [sealedQuit, plainQuit]) localhost sealedQuit.1
      (accepted (.configured [.sleeper]))) := by
  have hroot : (keyHost [sealedQuit, plainQuit]).parse sealedQuit.1 =
      .ok { sealedQuit.2 with nodeType := .leaf } := rfl
  have htext : otpD (keyHost [sealedQuit, plainQuit]).keyfile (fun _ => 0) chunkRoom (str "otp.txt")
      0 sealedQuit.2.contents = .ok (0, plainQuit.1) := rfl
  have hquit : (keyHost [sealedQuit, plainQuit]).parse plainQuit.1 =
      .ok { plainQuit.2 with nodeType := .leaf } := rfl
  have hdecode : (keyHost [sealedQuit, plainQuit]).decode sealedQuit.1 =
      .command (some ⟨str "otp.txt", 16⟩) plainQuit.1 { plainQuit.2 with nodeType := .leaf } := rfl
  refine (survived_iff localOnly _ localhost _ (.configured [.sleeper]) (by decide)).2
    (Or.inr ⟨⟨?_, ?_⟩, ?_⟩)
  · rw [hroot]
    simp
  · intro x hx _
    rw [hroot] at hx
    cases hx
    refine ⟨0, by decide, (exists_otpD_iff _ _ _ _ _ _).1 ⟨_, htext⟩, fun res pt hpt => ?_⟩
    cases htext.symm.trans hpt
    rw [hquit]
    simp
  · intro key text x hx _
    rw [hdecode] at hx
    cases hx
    exact (exists_otpE_iff _ (fun _ => 0) _ _ _).1 ⟨_, rfl⟩

/-- An offset that is no number ends the process; two bytes that are no letters are looked up
behind the matrix, a single letter is read on behind, and the zero behind 24 letters is not in the
block. -/
theorem survived_fails :
    localOnly.peerAllowed localhost = true ∧
      (let c := message localOnly (keyHost [otpDocument "x" []]) localhost (otpDocument "x" []).1
        (accepted (.configured [.sleeper]))
      c.halt = some .terminated ∧ ¬Survived c) ∧
      ∀ contents ∈ [[127, 127], str "A", str "CLGAGEFIGDB@BOCNCLGAGEFI"],
        let c := message localOnly (keyHost [otpDocument "0" contents]) localhost
          (otpDocument "0" contents).1 (accepted (.configured [.sleeper]))
        c.halt = some .undefined ∧ ¬Survived c := by
  refine ⟨by decide, ?_, ?_⟩
  · have hhalt : (message localOnly (keyHost [otpDocument "x" []]) localhost
        (otpDocument "x" []).1 (accepted (.configured [.sleeper]))).halt = some .terminated := by
      rfl
    exact ⟨hhalt, fun hs => by simp [hs.halt] at hhalt⟩
  · intro contents hmem c
    have hhalt : c.halt = some .undefined := by
      simp only [List.mem_cons, List.not_mem_nil, or_false] at hmem
      rcases hmem with rfl | rfl | rfl
      · rfl
      · rfl
      · rfl
    exact ⟨hhalt, fun hs => by simp [hs.halt] at hhalt⟩

/-! ## Connections -/

/-- The texts of all programs for a client that said `pgui`. -/
def guiTexts (h : Host) (σ : Process) : List Str :=
  (List.range σ.count).flatMap fun i => guiCommand h i { process := σ }

theorem closedOnce_close_iff (c : Session) : ClosedOnce c.close ↔ .close ∉ c.io := by
  constructor
  · rintro ⟨pre, hpre, hnot⟩
    rwa [(List.append_singleton_inj.mp hpre).1]
  · exact fun h => ⟨c.io, rfl, h⟩

theorem sendGui_halt (h : Host) (rv : List Str) (c : Session) :
    (sendGui h rv c).halt = c.halt := by
  induction rv generalizing c with
  | nil => rfl
  | cons r rv ih =>
    refine (ih _).trans ?_
    split_ifs <;> rfl

theorem close_mem_sendGui (h : Host) (rv : List Str) (hc : .close ∈ c.io) :
    .close ∈ (sendGui h rv c).io := by
  induction rv generalizing c with
  | nil => exact hc
  | cons r rv ih =>
    apply ih
    split_ifs
    · exact List.mem_append_left _ hc
    · exact List.mem_append_left _ (List.mem_append_left _ hc)

/-- The loop over the texts closes the client when a `send` fails, and goes on. -/
theorem sendGui_closedOnce_iff (h : Host) (rv : List Str) (hc : c.Open) :
    ClosedOnce (sendGui h rv c).close ↔ ∀ n < rv.length, h.sendOk (c.io.length + n) = true := by
  rw [closedOnce_close_iff]
  induction rv generalizing c with
  | nil => exact iff_of_true hc.io fun n hn => absurd hn (Nat.not_lt_zero n)
  | cons r rv ih =>
    rw [List.length_cons, Nat.forall_lt_succ_left, Nat.add_zero]
    have hok : (c.send h (r ++ str "\n")).1 = h.sendOk c.io.length := by
      simp [Session.send, hc.io]
    by_cases htaken : h.sendOk c.io.length = true
    · have hplace : ∀ n, (c.send h (r ++ str "\n")).2.io.length + n = c.io.length + (n + 1) := by
        intro n
        simp [Session.send]
        omega
      have hrest := ih (hc.send h (r ++ str "\n"))
      simp only [hplace] at hrest
      rw [sendGui]
      simp only [hok, htaken, if_true]
      rw [hrest]
      simp
    · rw [sendGui]
      simp only [hok, htaken]
      apply iff_of_false
      · exact not_not_intro (close_mem_sendGui h rv (List.mem_append_right _ List.mem_cons_self))
      · exact fun hall => Bool.false_ne_true hall.1

section Connection

variable {input rest : Input}

theorem connection_of_refused (hid : input.read = .text (str "pcmd") rest)
    (hsend : ¬h.sendOk 0 = true) : connection cfg h peer input σ =
      (({ process := σ } : Session).send h (str "1")).2.close := by
  simp only [connection, serve, hid, pcmd, send, List.length_nil, hsend]
  rfl

theorem connection_of_pgui (hid : input.read = .text (str "pgui") rest) :
    connection cfg h peer input σ = (sendGui h (guiTexts h σ) { process := σ }).close := by
  simp only [connection, serve, hid]
  rfl

theorem connection_of_other {id : Str} (hid : input.read = .text id rest)
    (hpcmd : id ≠ str "pcmd") (hpgui : id ≠ str "pgui") :
    connection cfg h peer input σ = ({ process := σ } : Session).close := by
  simp only [connection, serve, hid]
  rw [if_neg hpcmd, if_neg hpgui]

/-- A connection without a message yet. -/
theorem fresh_open (σ : Process) : ({ process := σ } : Session).Open := ⟨rfl, by simp⟩

/-- After `pcmd` only a message that throws keeps the client from being closed once. -/
theorem pcmd_closedOnce_iff {rest' : Input} (hid : input.read = .text (str "pcmd") rest)
    (hcmd : rest.read = .text cmd rest') :
    ((connection cfg h peer input σ).halt ≠ some .undefined →
        ClosedOnce (connection cfg h peer input σ)) ↔
      (h.sendOk 0 = true → ¬Throws cfg h peer cmd) := by
  by_cases hsend : h.sendOk 0 = true
  · rw [connection_eq_message hid hcmd hsend, imp_iff_right hsend]
    constructor
    · intro hclosed hthrows
      rw [message_of_throws hthrows] at hclosed
      obtain ⟨pre, hpre, -⟩ := hclosed (by simp [stop])
      have hmem : Io.close ∈ (accepted σ).io := by
        rw [show (accepted σ).io = pre ++ [.close] from hpre]
        exact List.mem_append_right pre List.mem_cons_self
      exact (accepted_open σ).io hmem
    · intro hno hdef
      cases message_outcome cfg h peer cmd σ with
      | closed halt io => exact io
      | undefined halt => exact absurd halt hdef
      | thrown halt io hbad => exact absurd hbad hno
  · rw [connection_of_refused hid hsend]
    exact iff_of_true (fun _ => ((fresh_open σ).send h (str "1")).closedOnce)
      fun hyes => absurd hyes hsend

/-- After `pgui` every failed `send` closes the client once more. -/
theorem pgui_closedOnce_iff (hid : input.read = .text (str "pgui") rest) :
    ((connection cfg h peer input σ).halt ≠ some .undefined →
        ClosedOnce (connection cfg h peer input σ)) ↔
      ∀ n < (guiTexts h σ).length, h.sendOk n = true := by
  have hhalt : (sendGui h (guiTexts h σ) { process := σ }).close.halt = none :=
    sendGui_halt h (guiTexts h σ) { process := σ }
  rw [connection_of_pgui hid, hhalt, imp_iff_right (by decide),
    sendGui_closedOnce_iff h (guiTexts h σ) (fresh_open σ)]
  simp

end Connection

/-- A connection whose identification is read, and its command after `pcmd`, closes the client once
and by the last call on its socket, unless its behaviour is undefined, exactly when `pgui` finds
every `send` taken and the message after `pcmd` does not throw. -/
theorem closedOnce_iff (cfg : Config) (h : Host) (peer : Str) (input : Input) (σ : Process)
    (id : Str) (rest : Input) (hid : input.read = .text id rest)
    (hcmd : id = str "pcmd" → ∃ cmd rest', rest.read = .text cmd rest') :
    ((connection cfg h peer input σ).halt ≠ some .undefined →
        ClosedOnce (connection cfg h peer input σ)) ↔
      (id = str "pgui" → ∀ n < (guiTexts h σ).length, h.sendOk n = true) ∧
        (id = str "pcmd" → h.sendOk 0 = true →
          ∀ cmd rest', rest.read = .text cmd rest' → ¬Throws cfg h peer cmd) := by
  by_cases hpcmd : id = str "pcmd"
  · subst hpcmd
    obtain ⟨cmd, rest', hread⟩ := hcmd rfl
    rw [pcmd_closedOnce_iff hid hread]
    constructor
    · refine fun hno => ⟨fun hg => absurd hg (by decide), fun _ hsend cmd' rest'' hread' => ?_⟩
      rw [hread] at hread'
      cases hread'
      exact hno hsend
    · exact fun hall hsend => hall.2 rfl hsend cmd rest' hread
  · by_cases hpgui : id = str "pgui"
    · subst hpgui
      rw [pgui_closedOnce_iff hid]
      exact ⟨fun hall => ⟨fun _ => hall, fun hp => absurd hp hpcmd⟩, fun hall => hall.1 rfl⟩
    · rw [connection_of_other hid hpcmd hpgui]
      exact iff_of_true (fun _ => (fresh_open σ).closedOnce)
        ⟨fun hg => absurd hg hpgui, fun hp => absurd hp hpcmd⟩

theorem closedOnce_iff_info :
    let c := connection localOnly {} localhost ⟨[cmdLine, infoLine], true⟩ (.configured [.sleeper])
    c.halt ≠ some .undefined → ClosedOnce c := by
  have hid : Input.read ⟨[cmdLine, infoLine], true⟩ = .text (str "pcmd") ⟨[infoLine], true⟩ := by
    rfl
  have hcmd : Input.read ⟨[infoLine], true⟩ = .text (str "<info />") ⟨[], true⟩ := by rfl
  refine (closedOnce_iff localOnly {} localhost _ (.configured [.sleeper]) _ _ hid
    fun _ => ⟨_, _, hcmd⟩).mpr ⟨fun hg => absurd hg (by decide), fun _ _ cmd rest' hread => ?_⟩
  rw [hcmd] at hread
  cases hread
  rintro ⟨-, -, x, hp, -⟩
  cases hp

/-- After a failed `send` the client of `pgui` is closed twice. -/
theorem closedOnce_fails :
    (connection localOnly { sendOk := fun _ => false } localhost ⟨[guiLine], true⟩
      (.configured [.sleeper])).io =
        [.send (str "sleeper P:0 S:0 A:00s D:00s\n") false, .close, .close] := by
  rfl

end Session

end Peter
