import Peter.Access

/-!
# What goes back on an encrypted request

A request whose root is an `<otp>` element is answered under `otp_e` at the end of the dispatch,
but an error for a command that is not allowed, and the answers of `<scheduler>` to its children,
are sent before it.
-/

namespace Peter

open History

/-- A printed tree begins with its tag. -/
theorem XMLNode.toStr_eq {x : XMLNode} (hx : x.nodeType ≠ .comment) :
    ∃ rest, x.toStr = str "<" ++ x.name ++ rest := by
  obtain ⟨name, contents, nodeType, attributes, children⟩ := x
  simp only [XMLNode.toStr, XMLNode.pp]
  rw [if_neg hx]
  split_ifs
  · exact ⟨ppAttributes attributes ++ str " />\n", by simp⟩
  · simp only [List.nil_append, List.append_assoc, List.append_cancel_left_eq]
    exact ⟨_, rfl⟩
  · simp only [List.nil_append, List.append_assoc, List.append_cancel_left_eq]
    exact ⟨_, rfl⟩

namespace Session

variable {cfg : Config} {h : Host} {peer cmd text t : Str} {σ : Process} {c : Session}
  {x root : XMLNode} {key : Option OtpKey}

/-- A text that begins like the tags `<peter` and `<program`. -/
def Clear (t : Str) : Prop := ∃ rest, t = str "<p" ++ rest

theorem not_sealed_of_clear {k : OtpKey} (ht : Clear t) : ¬ Sealed h k t := by
  obtain ⟨rest, rfl⟩ := ht
  rintro (hcode | ⟨tmp, pt, -, henvelope⟩)
  · simp [str] at hcode
  · simp [str, envelope] at henvelope

theorem errorResult_clear (type : Str) : Clear (errorResult type).toStr := by
  have hnode : (errorResult type).nodeType ≠ .comment := by
    simp [errorResult, XMLNode.addChild]
  obtain ⟨rest, hrest⟩ := XMLNode.toStr_eq hnode
  exact ⟨str "eter" ++ rest, hrest⟩

theorem xmlInfo_clear (utc : ℤ) (p : Program) : Clear (p.xmlInfo utc).toStr := by
  have hname : (p.xmlInfo utc).name = str "program" ∧ (p.xmlInfo utc).nodeType = .undef := by
    unfold Program.xmlInfo
    split_ifs <;> exact ⟨rfl, rfl⟩
  obtain ⟨rest, hrest⟩ := XMLNode.toStr_eq (x := p.xmlInfo utc) (by simp [hname.2])
  rw [hrest, hname.1]
  exact ⟨str "rogram" ++ rest, rfl⟩

/-- Everything sent after the message was read is under the key of the message. -/
def AnsweredSealed (h : Host) (cmd : Str) (c : Session) : Prop :=
  ∀ t ok, .send t ok ∈ c.io.tail →
    ∃ k text x, h.decode cmd = .command (some k) text x ∧ Sealed h k t

/-- A clear text breaks that. -/
theorem not_answeredSealed {ok : Bool} (ht : Clear t) (hmem : .send t ok ∈ c.io)
    (hhead : c.io.head? = some (.send (str "1") true)) : ¬ AnsweredSealed h cmd c := by
  intro hsealed
  have htail : .send t ok ∈ c.io.tail := by
    cases hio : c.io with
    | nil => simp [hio] at hmem
    | cons e es =>
      obtain rfl : e = .send (str "1") true := by simpa [hio] using hhead
      rw [hio] at hmem
      rcases List.mem_cons.1 hmem with he | hmem
      · obtain ⟨rest, rfl⟩ := ht
        simp [str] at he
      · exact hmem
  obtain ⟨k, -, -, -, hk⟩ := hsealed t ok htail
  exact not_sealed_of_clear ht hk

theorem decode_of_otp (hroot : h.parse cmd = .ok root) (hotp : root.name = str "otp") :
    h.decode cmd = h.decrypt root := by
  unfold Host.decode
  rw [hroot]
  exact if_pos hotp

/-- A parse error after the decryption is known to be one. -/
theorem decrypt_ne_parseError : h.decrypt root ≠ .parseError false := by
  unfold Host.decrypt
  cases stol (root.getAttribute (str "offset") (str "0")) with
  | none => simp
  | some offset =>
    simp only
    split
    · simp
    · split <;> simp

/-- A command from an `<otp>` element has a key. -/
theorem exists_key (hroot : h.parse cmd = .ok root) (hotp : root.name = str "otp")
    (hd : h.decode cmd = .command key text x) : ∃ k, key = some k := by
  obtain ⟨hp, ⟨-, hkey⟩ | ⟨htext, -, hname⟩⟩ := decode_eq_command hd
  · exact Option.isSome_iff_exists.1 hkey
  · rw [htext] at hp
    obtain rfl := Except.ok.inj (hroot.symm.trans hp)
    exact absurd hotp hname

theorem execute_of_not_allowed (hno : cfg.cmdAllowed x.name = false) (c : Session) :
    execute cfg h key text x c =
      (c.send h (errorResult (str "not allowed or unknown")).toStr).2.close := by
  simp [execute, hno]

theorem execute_of_allowed (hyes : cfg.cmdAllowed x.name = true) (c : Session) :
    execute cfg h key text x c =
      (dispatch cfg h text x c).2.reply h key (dispatch cfg h text x c).1.toStr := by
  simp [execute, hyes]

theorem reply_io (c : Session) (h : Host) (key : Option OtpKey) (tmp : Str) :
    AddsOnly io (fun _ => True) c (c.reply h key tmp) := by
  obtain ⟨t, ht, -⟩ | ⟨halt, ht⟩ := reply_cases c h key tmp <;> rw [ht]
  · exact (AddsOnly.singleton rfl trivial).trans (AddsOnly.singleton rfl trivial)
  · exact AddsOnly.of_eq rfl

/-- What is sent first stays first. -/
theorem head?_of_addsOnly {F : Io → Prop} {c' : Session} (hadds : AddsOnly io F c c') {e : Io}
    (hhead : c.io.head? = some e) : c'.io.head? = some e := by
  obtain ⟨new, hnew, -⟩ := hadds
  rw [hnew, List.head?_append, hhead]
  rfl

theorem send_mem (c : Session) (h : Host) (t : Str) :
    .send t (c.send h t).1 ∈ (c.send h t).2.io :=
  List.mem_append_right c.io (List.mem_singleton.2 rfl)

/-- A command that is not allowed, or that discloses the programs of a scheduler, is answered in
clear. -/
theorem execute_clear (h : Host) (key : Option OtpKey) (text : Str)
    (hbad : cfg.cmdAllowed x.name = false ∨ ∃ i, x.Discloses σ i) :
    ∃ t ok, Clear t ∧ .send t ok ∈ (execute cfg h key text x (accepted σ)).io ∧
      (execute cfg h key text x (accepted σ)).io.head? = some (.send (str "1") true) := by
  by_cases hno : cfg.cmdAllowed x.name = false
  · rw [execute_of_not_allowed hno]
    have hmem := send_mem (accepted σ) h (errorResult (str "not allowed or unknown")).toStr
    exact ⟨_, _, errorResult_clear _, List.mem_append_left [.close] hmem, rfl⟩
  · have hyes : cfg.cmdAllowed x.name = true := by simpa using hno
    obtain ⟨i, hx⟩ := hbad.resolve_left hno
    have hfollows := accepted_follows σ h.now
    obtain ⟨e, he, p, ok, rfl⟩ := dispatch_sends cfg text hx hfollows
    have hreply := reply_io (dispatch cfg h text x (accepted σ)).2 h key
      (dispatch cfg h text x (accepted σ)).1.toStr
    rw [execute_of_allowed hyes]
    refine ⟨_, ok, xmlInfo_clear h.utc _, hreply.mem he, ?_⟩
    exact head?_of_addsOnly hreply (head?_of_addsOnly (dispatch_io cfg text x hfollows) rfl)

/-- Any other command sends nothing before its answer. -/
theorem dispatch_io_eq (cfg : Config) (text : Str) (hx : ∀ i, ¬ x.Discloses σ i) :
    (dispatch cfg h text x (accepted σ)).2.io = [.send (str "1") true] := by
  obtain ⟨new, hnew, hF⟩ := dispatch_io cfg text x (accepted_follows σ h.now)
  have hnil : new = [] := by
    apply List.eq_nil_iff_forall_not_mem.2
    intro e he
    obtain ⟨i, -, hdisc⟩ := hF e he
    exact hx i hdisc
  rw [hnew, hnil]
  rfl

/-- With a key the answer is one sealed text. -/
theorem execute_sealed {k : OtpKey} (hyes : cfg.cmdAllowed x.name = true)
    (hx : ∀ i, ¬ x.Discloses σ i) {ok : Bool}
    (ht : .send t ok ∈ (execute cfg h (some k) text x (accepted σ)).io.tail) : Sealed h k t := by
  have hio := dispatch_io_eq (h := h) cfg text hx
  rw [execute_of_allowed hyes] at ht
  obtain ⟨t', hr, -, hsealed⟩ | ⟨halt, hr⟩ := reply_cases (dispatch cfg h text x (accepted σ)).2 h
    (some k) (dispatch cfg h text x (accepted σ)).1.toStr <;> rw [hr] at ht
  · have : t = t' := by
      simp only [close, send, hio, List.cons_append, List.nil_append, List.tail_cons,
        List.mem_cons, Io.send.injEq, List.not_mem_nil, or_false, reduceCtorEq] at ht
      exact ht.1
    exact this ▸ hsealed k rfl
  · simp [stop, hio] at ht

/-- On a request with an `<otp>` root everything is answered under the key, unless the command is
not allowed or asks for the programs of a scheduler inside a `<scheduler>` element. -/
theorem answeredSealed_iff (cfg : Config) (h : Host) (peer cmd : Str) (σ : Process)
    (root : XMLNode) (hpeer : cfg.peerAllowed peer = true) (hroot : h.parse cmd = .ok root)
    (hotp : root.name = str "otp") :
    AnsweredSealed h cmd (message cfg h peer cmd (accepted σ)) ↔
      ¬ ∃ key text x, cfg.Accepts h peer cmd key text x ∧
        (cfg.cmdAllowed x.name = false ∨ ∃ i, x.Discloses σ i) := by
  constructor
  · rintro hsealed ⟨key, text, x, ha, hbad⟩
    obtain ⟨t, ok, ht, hmem, hhead⟩ := execute_clear h key text hbad
    rw [message_of_accepts ha] at hsealed
    exact not_answeredSealed ht hmem hhead hsealed
  · intro hno
    by_cases hex : ∃ key text x, cfg.Accepts h peer cmd key text x
    · obtain ⟨key, text, x, ha⟩ := hex
      obtain ⟨k, rfl⟩ := exists_key hroot hotp ha.decode
      have hyes : cfg.cmdAllowed x.name = true := by
        by_contra hnot
        exact hno ⟨some k, text, x, ha, .inl (by simpa using hnot)⟩
      rw [message_of_accepts ha]
      intro t ok ht
      refine ⟨k, text, x, ha.decode, execute_sealed hyes (fun i hdisc => ?_) ht⟩
      exact hno ⟨some k, text, x, ha, .inr ⟨i, hdisc⟩⟩
    · have hnone := fun key text x hx => hex ⟨key, text, x, hx⟩
      intro t ok ht
      rcases message_of_not_accepts hnone (accepted σ) with hm | ⟨type, hm, hdecode⟩ | ⟨halt, hm⟩
      · rw [hm] at ht
        simp [close, accepted] at ht
      · have herror := hdecode hpeer
        rw [decode_of_otp hroot hotp] at herror
        exact absurd herror decrypt_ne_parseError
      · rw [hm] at ht
        simp [stop, accepted] at ht

/-- A host that can decrypt the sealed `<quit />`. -/
def quitHost : Host := keyHost [sealedQuit, plainQuit]

theorem quitHost_parse :
    quitHost.parse sealedQuit.1 = .ok { sealedQuit.2 with nodeType := .leaf } := by rfl

/-- The sealed `<quit />` under a configuration. -/
def sealedQuitSession (cfg : Config) : Session :=
  message cfg quitHost localhost sealedQuit.1 (accepted (.configured [.sleeper]))

theorem answeredSealed_iff_sealedQuit :
    (sealedQuitSession localOnly).acts = [(.quit 0, plainQuit.1)] ∧
      AnsweredSealed quitHost sealedQuit.1 (sealedQuitSession localOnly) := by
  refine ⟨by rfl, (answeredSealed_iff _ _ _ _ _ _ (by decide) quitHost_parse rfl).2 ?_⟩
  have hdecode : quitHost.decode sealedQuit.1 =
      .command (some ⟨str "otp.txt", 16⟩) plainQuit.1 { plainQuit.2 with nodeType := .leaf } := by
    rfl
  rintro ⟨key, text, x, ha, hbad⟩
  obtain ⟨-, -, rfl⟩ := Decoded.command.inj (hdecode.symm.trans ha.decode)
  rcases hbad with hno | ⟨i, ⟨hname, -⟩, -⟩
  · exact absurd hno (by decide)
  · exact absurd hname (by decide)

/-- A configuration that allows `info` alone. -/
def infoOnly : Config := { hAllow := [localhost], cAllow := [str "info"] }

/-- A command that is not in the list is refused in clear. -/
theorem answeredSealed_fails :
    (sealedQuitSession infoOnly).io = [.send (str "1") true,
        .send (errorResult (str "not allowed or unknown")).toStr true, .close] ∧
      ¬ AnsweredSealed quitHost sealedQuit.1 (sealedQuitSession infoOnly) := by
  have hio : (sealedQuitSession infoOnly).io = [.send (str "1") true,
      .send (errorResult (str "not allowed or unknown")).toStr true, .close] := by rfl
  have hmem : .send (errorResult (str "not allowed or unknown")).toStr true ∈
      (sealedQuitSession infoOnly).io := by simp [hio]
  exact ⟨hio, not_answeredSealed (errorResult_clear _) hmem (by simp [hio])⟩

end Session

end Peter
