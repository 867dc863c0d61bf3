import Peter.Lib.Allocation
import Peter.Otpcmd
import Peter.Replies
import Peter.Values

/-!
# Which bytes of a key file are used

The client counts the characters of its command, the server twice as many, since it counts letters,
and the client takes the server's count over when it reads the reply.  So the position that is
stored lies behind everything that was used (`exchange_takes`) when the exchange is finished, and
`pad_used_once` follows for whole runs.  It need not when the client stops after a reply was
encrypted and before it is read.
-/

namespace Peter

open Allocation

/-! ## Positions -/

/-- An offset that was printed as an `int` is read as one. -/
theorem stol_printed (i : ℤ) : stol (toStr (toInt i)) = some (toInt i) := by
  have hint := toInt_mem i
  have h := stol_toStr (n := toInt i) (by omega) (by omega) (r := []) (by simp [EndsNumber])
  rwa [List.append_nil] at h

theorem le_readPos (posfile : Option Str) : -9223372036854775808 ≤ readPos posfile := by
  cases posfile with
  | none => decide
  | some s => exact le_max_left _ _

theorem extractLong_toStr {n : ℤ} (hlo : -9223372036854775808 ≤ n)
    (hhi : n ≤ 9223372036854775807) {r : Str} (hr : EndsNumber r) :
    extractLong (toStr n ++ r) = n := by
  have hclamp : max (-9223372036854775808) (min n 9223372036854775807) = n := by omega
  cases n with
  | ofNat n =>
    obtain ⟨c, t, ht, hc⟩ := toStr_eq_cons n
    have hdigits := digits_toStr n hr
    have hc' : 48 ≤ c.toNat ∧ c.toNat ≤ 57 := hc
    have h45 : c ≠ 45 := by rintro rfl; exact absurd hc (by decide)
    have h43 : c ≠ 43 := by rintro rfl; exact absurd hc (by decide)
    show extractLong (toStr (n : ℤ) ++ r) = (n : ℤ)
    rw [ht, List.cons_append] at hdigits ⊢
    unfold extractLong
    rw [List.dropWhile_cons_of_neg (by simp; omega)]
    simp only [List.cons.injEq, h45, h43, false_and, imp_self, implies_true, hdigits]
    exact hclamp
  | negSucc n =>
    have hdigits := digits_toStr (n + 1) hr
    rw [toStr_negSucc, List.cons_append]
    unfold extractLong
    rw [List.dropWhile_cons_of_neg (by decide)]
    simp only [hdigits]
    exact hclamp

/-- The client reads the position it stored. -/
theorem readPos_posText {of : ℤ} (hlo : -9223372036854775808 ≤ of)
    (hhi : of ≤ 9223372036854775807) : readPos (some (posText of)) = of :=
  extractLong_toStr hlo hhi (by simp [EndsNumber, IsDigit, str])

/-! ## Letters -/

theorem length_otpEChar {otp : ℕ → UInt8} {pt cy : Str} {i : ℕ}
    (h : otpEChar otp pt i = .ok cy) : cy.length = 2 * pt.length := by
  induction pt generalizing i cy with
  | nil =>
    cases h
    rfl
  | cons p pt ih =>
    rw [otpEChar] at h
    cases hlook : lookup lAdd (charVal p) (charVal (otp i)) with
    | error halt => simp [hlook] at h
    | ok c =>
      cases hres : otpEChar otp pt (i + 1) with
      | error halt => simp [hlook, hres] at h
      | ok res =>
        simp only [hlook, hres] at h
        cases h
        have hletters : (binEInt c).length = 2 := rfl
        rw [List.length_append, List.length_cons, hletters, ih hres]
        omega

/-- A result 0 needs a key file, and there are two letters for each character. -/
theorem otpE_eq_ok {keyfile : Str → Option Keyfile} {junk : ℕ → UInt8} {kf pt cy : Str} {of : ℤ}
    (h : otpE keyfile junk kf of pt = .ok (0, cy)) :
    (∃ f, keyfile kf = some f) ∧ cy.length = 2 * (cStr pt).length := by
  unfold otpE at h
  cases hf : keyfile kf with
  | none => simp [hf] at h
  | some f =>
    simp only [hf] at h
    split_ifs at h
    · cases h
    · cases hcy : otpEChar (buffer junk (f.read of pt.length).1) (cStr pt) 0 with
      | error halt => simp [hcy] at h
      | ok cy' =>
        simp only [hcy] at h
        cases h
        exact ⟨⟨f, rfl⟩, length_otpEChar hcy⟩

theorem otpD_eq_ok {keyfile : Str → Option Keyfile} {junk : ℕ → UInt8} {room : ℕ → Bool}
    {kf cy pt : Str} {of : ℤ} {f : Keyfile} {res : ℕ} (hf : keyfile kf = some f)
    (h : otpD keyfile junk room kf of cy = .ok (res, pt)) : res = 0 := by
  unfold otpD at h
  simp only [hf] at h
  split_ifs at h
  cases hpt : otpDChar (buffer junk (f.read of cy.length).1) (cy ++ [0]) 0 with
  | error halt => simp [hpt] at h
  | ok pt' =>
    simp only [hpt] at h
    cases h
    rfl

/-- A command has no character that `otp_e` would stop at. -/
theorem cStr_command (stdin : Str) : cStr (command stdin) = command stdin := by
  apply cStr_eq_self
  intro h0
  have hmem : 0 ∈ cStr (fgets 1023 stdin) := List.mem_of_mem_take h0
  simpa using List.mem_takeWhile_imp hmem

/-! ## What the server encrypts -/

namespace Session

variable {cfg : Config} {h : Host} {peer cmd : Str} {σ : Process} {c : Session} {e : Cyphertext}
  {ok : Bool}

/-- The result of an accepted and allowed command, under the key of the message. -/
theorem encrypted_eq_some :
    encrypted cfg h peer cmd c = some e ↔ ∃ text x,
      cfg.Accepts h peer cmd (some e.key) text x ∧ cfg.cmdAllowed x.name = true ∧
        e.text = (dispatch cfg h text x c).1.toStr ∧
        otpE h.keyfile h.junkE e.key.keyfile e.key.offset e.text = .ok (0, e.letters) := by
  constructor
  · intro he
    unfold encrypted at he
    split_ifs at he with hotp hpeer
    split at he
    · rename_i k text x hdecode
      split_ifs at he with hallowed
      simp only at he
      split at he
      · rename_i pt hpt
        cases he
        refine ⟨text, x, ⟨fun hb => ?_, by simpa using hpeer, hdecode⟩, by simpa using hallowed,
          rfl, hpt⟩
        simpa [hb, Option.isSome_iff_ne_none] using hotp
      · cases he
    · cases he
  · rintro ⟨text, x, ha, hallowed, htext, hletters⟩
    unfold encrypted
    simp only [otpOnly_eq_false ha.otp, ha.peer, ha.decode, hallowed, ← htext, hletters,
      Bool.not_true, Bool.false_eq_true, if_false]

/-- What a reply is when it is encrypted, and nothing else is sent. -/
theorem answer_of_encrypted (he : encrypted cfg h peer cmd (accepted σ) = some e)
    (hx : ∀ text x, h.decode cmd = .command (some e.key) text x → ∀ i, ¬x.Discloses σ i)
    (hsend : h.sendOk 1 = true) :
    (message cfg h peer cmd (accepted σ)).answer = envelope e.key e.letters := by
  obtain ⟨text, x, ha, hallowed, htext, hletters⟩ := encrypted_eq_some.1 he
  have hio := dispatch_io_eq (h := h) cfg text (hx text x ha.decode)
  rw [message_of_accepts ha, execute_of_allowed hallowed, ← htext]
  simp only [reply, hletters]
  unfold answer bytes close send
  simp [hio, hsend]

/-! ## What the server sends in clear -/

/-- The answers of the server that are not under a key. -/
def Unsealed (t : Str) : Prop := t = [] ∨ t = str "2" ∨ Clear t

theorem Clear.append {t : Str} (ht : Clear t) (s : Str) : Clear (t ++ s) := by
  obtain ⟨rest, rfl⟩ := ht
  exact ⟨rest ++ s, List.append_assoc ..⟩

/-- Texts in clear, and then such an answer. -/
theorem unsealed_bytes {l l' : List Io} (hl : ∀ t, .send t true ∈ l → Clear t)
    (hl' : Unsealed (bytes { c with io := l' })) : Unsealed (bytes { c with io := l ++ l' }) := by
  induction l with
  | nil => exact hl'
  | cons e l ih =>
    have hrest := ih fun t ht => hl t (List.mem_cons_of_mem e ht)
    cases e with
    | close => exact hrest
    | send t ok =>
      cases ok with
      | false => exact hrest
      | true => exact .inr (.inr ((hl t List.mem_cons_self).append _))

theorem answer_eq_bytes {l : List Io} (hio : c.io = .send (str "1") true :: l) :
    c.answer = bytes { c with io := l } := by
  unfold answer
  rw [hio]
  rfl

theorem unsealed_error (type : Str) :
    Unsealed ((accepted σ).send h (errorResult type).toStr).2.close.answer := by
  rw [answer_eq_bytes (l := [.send (errorResult type).toStr _] ++ [.close]) rfl]
  apply unsealed_bytes _ (.inl rfl)
  intro t ht
  obtain ⟨rfl, -⟩ := Io.send.inj (List.mem_singleton.1 ht)
  exact errorResult_clear type

/-- A reply that is not encrypted is the code of the failure. -/
theorem unsealed_reply {k : OtpKey} {tmp : Str} {new : List Io}
    (hio : c.io = .send (str "1") true :: new) (hnew : ∀ t, .send t true ∈ new → Clear t)
    (hfail : ∀ pt, otpE h.keyfile h.junkE k.keyfile k.offset tmp ≠ .ok (0, pt)) :
    Unsealed (c.reply h (some k) tmp).answer := by
  simp only [reply]
  cases hres : otpE h.keyfile h.junkE k.keyfile k.offset tmp with
  | error halt =>
    rw [answer_eq_bytes (c := c.stop halt) hio, ← List.append_nil new]
    exact unsealed_bytes hnew (.inl rfl)
  | ok r =>
    obtain ⟨res, pt⟩ := r
    have hpos : res > 0 := by
      by_contra h0
      obtain rfl : res = 0 := by omega
      exact hfail pt hres
    simp only [if_pos hpos]
    have hsent : (c.send h (str "2")).2.close.io =
        .send (str "1") true :: (new ++ [.send (str "2") (c.send h (str "2")).1, .close]) := by
      simp [close, send, hio]
    rw [answer_eq_bytes hsent]
    apply unsealed_bytes hnew
    cases (c.send h (str "2")).1 with
    | false => exact .inl rfl
    | true => exact .inr (.inl rfl)

/-- What the dispatcher sends itself. -/
theorem clear_of_sendsInfo {i : ℕ} {t : Str} (hinfo : SendsInfo h σ i (.send t ok)) : Clear t := by
  obtain ⟨p, ok', he⟩ := hinfo
  obtain ⟨rfl, -⟩ := Io.send.inj he
  exact xmlInfo_clear h.utc _

/-- Without encryption, a message with a key gets such an answer. -/
theorem answer_of_not_encrypted (hno : encrypted cfg h peer cmd (accepted σ) = none)
    (hkey : ∀ text x, h.decode cmd ≠ .command none text x) :
    Unsealed (message cfg h peer cmd (accepted σ)).answer := by
  by_cases ha : ∃ key text x, cfg.Accepts h peer cmd key text x
  · obtain ⟨key, text, x, ha⟩ := ha
    rw [message_of_accepts ha]
    cases key with
    | none => exact absurd ha.decode (hkey text x)
    | some k =>
      cases hallowed : cfg.cmdAllowed x.name with
      | false =>
        rw [execute_of_not_allowed hallowed]
        exact unsealed_error _
      | true =>
        obtain ⟨new, hnew, hinfo⟩ := dispatch_io cfg text x (accepted_follows σ h.now)
        rw [execute_of_allowed hallowed]
        refine unsealed_reply hnew (fun t ht => ?_) fun pt hpt => ?_
        · obtain ⟨i, hi, -⟩ := hinfo _ ht
          exact clear_of_sendsInfo hi
        · have hsome : encrypted cfg h peer cmd (accepted σ) = some ⟨k, _, pt⟩ :=
            encrypted_eq_some.2 ⟨text, x, ha, hallowed, rfl, hpt⟩
          rw [hno] at hsome
          cases hsome
  · have hnone := fun key text x hx => ha ⟨key, text, x, hx⟩
    rcases message_of_not_accepts hnone (accepted σ) with hm | ⟨type, hm, -⟩ | ⟨halt, hm⟩
    · rw [hm]
      exact .inl rfl
    · rw [hm]
      exact unsealed_error _
    · rw [hm]
      exact .inl rfl

end Session

/-! ## What the parser reads -/

/-- The element that `envelope key pt` is the text of. -/
structure XMLNode.Envelops (key : OtpKey) (pt : Str) (x : XMLNode) : Prop where
  name : x.name = str "otp"
  keyfile : x.getAttribute (str "keyfile") (str "otp.txt") = key.keyfile
  offset : x.getAttribute (str "offset") (str "0") = Peter.toStr (toInt key.offset)
  contents : x.contents = pt

/-- The first `<` of a document belongs to its prolog or begins the tag of its root. -/
def XMLNode.BeginsIn (t : Str) (x : XMLNode) : Prop :=
  ∃ ws c rest, t = ws ++ 60 :: c :: rest ∧ 60 ∉ ws ∧ (c ∉ str "?!" → x.name.head? = some c)

/-- An answer in clear is no `<otp>` element. -/
theorem XMLNode.BeginsIn.name_ne {t : Str} {x : XMLNode} (hx : x.BeginsIn t)
    (ht : Session.Unsealed t) : x.name ≠ str "otp" := by
  obtain ⟨ws, c, rest, htext, hws, hc⟩ := hx
  rcases ht with rfl | rfl | ⟨rest', rfl⟩
  · simp at htext
  · have hmem : (60 : UInt8) ∈ str "2" := by
      rw [htext]
      simp
    exact absurd hmem (by decide)
  · intro hname
    cases ws with
    | nil =>
      obtain ⟨rfl, -⟩ : 112 = c ∧ rest' = rest := by simpa [str] using htext
      have hhead := hc (by decide)
      rw [hname] at hhead
      exact absurd hhead (by decide)
    | cons w ws =>
      obtain ⟨rfl, -⟩ : 60 = w ∧ _ := by simpa [str] using htext
      exact hws List.mem_cons_self

namespace Exchange

/-- `XML_Parse` reads back the texts of the exchange: the command if it takes it at all, the reply,
and what comes in clear as far as its first tag. -/
structure Reads (x : Exchange) (kf : Str) (of : ℤ) (pt : Str) : Prop where
  command : ∀ y, x.server.parse (Session.envelope ⟨kf, of⟩ pt) = .ok y → y.Envelops ⟨kf, of⟩ pt
  reply : ∀ e, x.reply (Session.envelope ⟨kf, of⟩ pt) = some e →
    ∃ y, x.client.parse (Session.envelope e.key e.letters) = .ok y ∧ y.Envelops e.key e.letters
  clear : ∀ y, x.client.parse (x.served (Session.envelope ⟨kf, of⟩ pt)).answer = .ok y →
    y.BeginsIn (x.served (Session.envelope ⟨kf, of⟩ pt)).answer

/-- The key of a reply: the server goes on two places for each character of the command. -/
theorem Reads.key_eq {x : Exchange} {kf : Str} {of : ℤ} {pt : Str} (h : x.Reads kf of pt)
    {key : Option OtpKey} {text : Str} {y : XMLNode}
    (hdecode : x.server.decode (Session.envelope ⟨kf, of⟩ pt) = .command key text y) :
    key = some ⟨kf, toLong (toInt of + pt.length)⟩ := by
  cases hroot : x.server.parse (Session.envelope ⟨kf, of⟩ pt) with
  | error f =>
    unfold Host.decode at hdecode
    cases f <;> simp [hroot] at hdecode
  | ok root =>
    obtain ⟨hname, hkeyfile, hoffset, hcontents⟩ := h.command root hroot
    rw [Session.decode_of_otp hroot hname] at hdecode
    unfold Host.decrypt at hdecode
    simp only [hoffset, stol_printed, hkeyfile, hcontents] at hdecode
    split at hdecode
    · cases hdecode
    · split at hdecode
      · cases hdecode
      · cases hdecode
      · exact (Decoded.command.inj hdecode).1.symm

end Exchange

/-- Without a reply the answer is no `<otp>` element. -/
theorem Exchange.Reads.answer_name_ne {x : Exchange} {kf : Str} {of : ℤ} {pt : Str}
    (h : x.Reads kf of pt) (hno : x.reply (Session.envelope ⟨kf, of⟩ pt) = none) :
    ∀ y, x.client.parse (x.served (Session.envelope ⟨kf, of⟩ pt)).answer = .ok y →
      y.name ≠ str "otp" := by
  intro y hy
  apply (h.clear y hy).name_ne
  apply Session.answer_of_not_encrypted hno
  intro text r hdecode
  exact absurd (h.key_eq hdecode) (by simp)

/-! ## Where the client stores its position -/

namespace Host

variable {h : Host} {posfile posfile' : Option Str} {of : ℤ} {answer : Str} {killed : Bool}

/-- After an answer that is no `<otp>` element the position is the one of the command. -/
theorem finish_of_name_ne (hne : ∀ y, h.parse answer = .ok y → y.name ≠ str "otp")
    (hfinish : h.finish of answer killed = .ok posfile) :
    posfile = some (posText of) ∨ posfile = storePos killed of := by
  unfold finish at hfinish
  split_ifs at hfinish
  · exact .inl (Except.ok.inj hfinish).symm
  · cases hparse : h.parse answer with
    | error f =>
      cases f with
      | parseError =>
        simp only [hparse] at hfinish
        exact .inl (Except.ok.inj hfinish).symm
      | undefined => simp [hparse] at hfinish
    | ok y =>
      simp only [hparse, if_neg (hne y hparse)] at hfinish
      exact .inr (Except.ok.inj hfinish).symm

/-- After a reply it is the one of the reply, and its letters. -/
theorem finish_of_envelops {key : OtpKey} {pt : Str} {y : XMLNode} {f : Keyfile}
    (hparse : h.parse (Session.envelope key pt) = .ok y) (hy : y.Envelops key pt)
    (hkeyfile : h.keyfile key.keyfile = some f)
    (hfinish : h.finish of (Session.envelope key pt) false = .ok posfile) :
    posfile = some (posText (toLong (toInt key.offset + pt.length))) := by
  have hcode : Session.envelope key pt ≠ str "2" := by simp [Session.envelope, str]
  unfold finish at hfinish
  simp only [if_neg hcode, hparse, if_pos hy.name, hy.offset, stol_printed, hy.keyfile,
    hy.contents] at hfinish
  cases hres : otpD h.keyfile h.junkD h.roomD key.keyfile (toInt key.offset) pt with
  | error halt => simp [hres] at hfinish
  | ok r =>
    obtain ⟨res, plaintext⟩ := r
    obtain rfl : res = 0 := otpD_eq_ok hkeyfile hres
    simp only [hres] at hfinish
    exact (Except.ok.inj hfinish).symm

end Host

/-- How a client that sent `n` characters at the position `of` ends when no reply was encrypted:
it has stored a position behind them. -/
def Ending.Stores (h : Host) (of : ℤ) (n : ℕ) : Ending → Prop
  | .sent => n = 0
  | .opened => of + n ≤ 0
  | .waiting => True
  | .whole killed => killed = true → of + n ≤ 0
  | .other answer killed =>
    (killed = true → of + n ≤ 0) ∧ ∀ y, h.parse answer = .ok y → y.name ≠ str "otp"

theorem Ending.Stores.le_readPos {h : Host} {of : ℤ} {n : ℕ} {ending : Ending} {answer : Str}
    {posfile posfile' : Option Str} (hstores : ending.Stores h of n)
    (hlo : -9223372036854775808 ≤ of) (hhi : of + n ≤ 9223372036854775807)
    (hanswer : ∀ y, h.parse answer = .ok y → y.name ≠ str "otp")
    (hsend : h.afterSend posfile of n answer ending = .ok posfile') (hof : readPos posfile = of) :
    of + n ≤ readPos posfile' := by
  have hread : readPos (some (posText (toLong (of + n)))) = of + n := by
    rw [toLong_of_mem (by omega) hhi, readPos_posText (by omega) hhi]
  have hfinish : ∀ {t killed}, (∀ y, h.parse t = .ok y → y.name ≠ str "otp") →
      (killed = true → of + n ≤ 0) → h.finish (toLong (of + n)) t killed = .ok posfile' →
      of + n ≤ readPos posfile' := by
    intro t killed hne hkilled hfinish
    rcases Host.finish_of_name_ne hne hfinish with rfl | rfl
    · exact hread.ge
    · cases killed with
      | false => exact hread.ge
      | true => exact hkilled rfl
  cases ending with
  | sent =>
    obtain rfl : posfile = posfile' := Except.ok.inj hsend
    obtain rfl : n = 0 := hstores
    omega
  | opened =>
    obtain rfl : some [] = posfile' := Except.ok.inj hsend
    exact hstores
  | waiting =>
    obtain rfl : some (posText (toLong (of + n))) = posfile' := Except.ok.inj hsend
    exact hread.ge
  | whole killed => exact hfinish hanswer hstores hsend
  | other t killed => exact hfinish hstores.2 hstores.1 hsend

/-! ## One exchange -/

namespace Exchange

variable {x : Exchange} {kf : Str} {of : ℤ} {pt : Str}

/-- The client reads the whole reply `e`, which comes alone, and stores its position; the offsets
of the command and of the reply are `int`s. -/
structure Delivers (x : Exchange) (kf : Str) (of : ℤ) (pt : Str) (e : Cyphertext) : Prop where
  ending : x.ending = .whole false
  sendOk : x.server.sendOk 1 = true
  alone : ∀ key text y, x.server.decode (Session.envelope ⟨kf, of⟩ pt) = .command key text y →
    ∀ i, ¬y.Discloses x.process i
  fits : -2147483648 ≤ of ∧ of + 2 * (command x.stdin).length ≤ 2147483647
  length_le : of + 2 * (command x.stdin).length + e.letters.length ≤ 9223372036854775807

/-- The exchange leaves a position behind everything it used. -/
structure Settles (x : Exchange) (kf : Str) (of : ℤ) (pt : Str) : Prop where
  fits : of + (command x.stdin).length ≤ 9223372036854775807
  replied : ∀ e, x.reply (Session.envelope ⟨kf, of⟩ pt) = some e → x.Delivers kf of pt e
  unreplied : x.reply (Session.envelope ⟨kf, of⟩ pt) = none →
    x.ending.Stores x.client of (command x.stdin).length

/-- The places of a reply, and the position after it. -/
theorem Delivers.takes {e : Cyphertext} {posfile posfile' : Option Str} (h : x.Delivers kf of pt e)
    (hreads : x.Reads kf of pt) (hpt : x.encrypt kf of = .ok (0, pt))
    (he : x.reply (Session.envelope ⟨kf, of⟩ pt) = some e)
    (hsend : x.client.afterSend posfile of (command x.stdin).length
      (x.served (Session.envelope ⟨kf, of⟩ pt)).answer x.ending = .ok posfile') :
    Takes (of + (command x.stdin).length) (e.uses kf) (readPos posfile') := by
  obtain ⟨⟨f, hf⟩, hlen⟩ := otpE_eq_ok hpt
  rw [cStr_command] at hlen
  obtain ⟨text, y, ha, -, -, hletters⟩ := Session.encrypted_eq_some.1 he
  obtain ⟨-, hlenE⟩ := otpE_eq_ok hletters
  have hfits := h.fits
  have hlength := h.length_le
  have hkey : e.key = ⟨kf, of + 2 * (command x.stdin).length⟩ := by
    have hkey := Option.some.inj (hreads.key_eq ha.decode)
    rw [hkey, toInt_of_mem hfits.1 (by omega), toLong_of_mem (by omega) (by omega), hlen]
    push_cast
    rfl
  have hanswer : (x.served (Session.envelope ⟨kf, of⟩ pt)).answer =
      Session.envelope e.key e.letters :=
    Session.answer_of_encrypted he (fun text y => h.alone (some e.key) text y) h.sendOk
  obtain ⟨r, hr, henvelops⟩ := hreads.reply e he
  rw [h.ending, hanswer] at hsend
  obtain rfl := Host.finish_of_envelops hr henvelops (f := f) (by rw [hkey]; exact hf) hsend
  have hoffset : e.key.offset = of + 2 * (command x.stdin).length := by rw [hkey]
  rw [hoffset, toInt_of_mem (by omega) (by omega), toLong_of_mem (by omega) (by omega),
    readPos_posText (by omega) (by omega)]
  unfold Cyphertext.uses
  rw [if_pos (by rw [hkey]), hoffset]
  refine ⟨?_, ?_, ?_⟩
  · omega
  · omega
  · show _ + _ ≤ _
    omega

end Exchange

namespace Pad

/-- The texts of the exchange are read back, if the client has a key to send one. -/
def ReadBack (kf : Str) (σ : Pad) (x : Exchange) (_ : Pad) : Prop :=
  ∀ pt, x.encrypt kf σ.of = .ok (0, pt) → x.Reads kf σ.of pt

/-- The exchange leaves a position behind everything it used, if it used anything. -/
def Settled (kf : Str) (σ : Pad) (x : Exchange) (_ : Pad) : Prop :=
  ∀ pt, x.encrypt kf σ.of = .ok (0, pt) → x.Settles kf σ.of pt

variable {kf : Str} {x : Exchange} {σ σ' : Pad}

/-- What an exchange uses lies between the position before and the position after it. -/
theorem exchange_takes (hreads : ReadBack kf σ x σ') (hsettled : Settled kf σ x σ')
    (hstep : exchange kf x σ = .ok σ') :
    ∃ new, σ'.uses = σ.uses ++ new ∧ Takes σ.of new σ'.of := by
  unfold exchange at hstep
  cases hpt : x.encrypt kf σ.of with
  | error halt => simp [hpt] at hstep
  | ok r =>
    obtain ⟨res, pt⟩ := r
    simp only [hpt] at hstep
    split_ifs at hstep with hres
    · cases hstep
      exact ⟨[], (List.append_nil _).symm, le_rfl⟩
    · obtain rfl : res = 0 := by omega
      have hr := hreads pt hpt
      have hs := hsettled pt hpt
      have hlo := le_readPos σ.posfile
      have hfits := hs.fits
      cases hsend : x.client.afterSend σ.posfile σ.of (command x.stdin).length
          (x.served (Session.envelope ⟨kf, σ.of⟩ pt)).answer x.ending with
      | error halt => simp [hsend] at hstep
      | ok posfile =>
        simp only [hsend] at hstep
        cases hstep
        refine ⟨_, rfl, le_rfl, by dsimp only; omega, ?_⟩
        cases he : x.reply (Session.envelope ⟨kf, σ.of⟩ pt) with
        | none =>
          have hanswer := hr.answer_name_ne he
          exact (hs.unreplied he).le_readPos hlo hfits hanswer hsend rfl
        | some e =>
          rw [Option.toList_some, List.flatMap_singleton]
          exact (hs.replied e he).takes hr hpt he hsend

/-- Every run: what is used lies before the position, in the order in which it was used. -/
theorem always_takes {xs : List Exchange} {posfile : Option Str}
    (hreads : (machine kf).Along (ReadBack kf) xs { posfile })
    (hsettled : (machine kf).Along (Settled kf) xs { posfile }) :
    (machine kf).Always (fun σ => Takes (readPos posfile) σ.uses σ.of) xs { posfile } := by
  refine Transition.System.always_of_along ?_ le_rfl (hreads.and hsettled)
  rintro x σ σ' hσ hstep ⟨hr, hs⟩
  obtain ⟨new, hnew, htakes⟩ := exchange_takes hr hs hstep
  rw [hnew]
  exact hσ.append htakes

/-- A client that is killed when it waits for its reply has stored the position behind its
command. -/
theorem exchange_waiting {pt : Str} {e : Cyphertext}
    (hending : x.ending = .waiting) (hpt : x.encrypt kf σ.of = .ok (0, pt))
    (he : x.reply (Session.envelope ⟨kf, σ.of⟩ pt) = some e)
    (hfits : σ.of + (command x.stdin).length ≤ 9223372036854775807) :
    ∃ σ', exchange kf x σ = .ok σ' ∧ σ'.of = σ.of + (command x.stdin).length ∧
      σ'.uses = σ.uses ++ (σ.of, σ.of + (command x.stdin).length) :: e.uses kf := by
  have hlo := le_readPos σ.posfile
  have hof : readPos (some (posText (toLong (σ.of + (command x.stdin).length)))) =
      σ.of + (command x.stdin).length := by
    unfold of at hfits ⊢
    rw [toLong_of_mem (by omega) hfits, readPos_posText (by omega) hfits]
  unfold exchange
  simp only [hpt, hending, he, Host.afterSend, gt_iff_lt, lt_self_iff_false, if_false,
    Option.toList_some, List.flatMap_singleton]
  exact ⟨_, rfl, hof, rfl⟩

end Pad

/-! ## Two calls with one key file -/

namespace Exchange

/-- A reply that is an envelope is read back if its texts are. -/
theorem reads_of_replied {x : Exchange} {kf : Str} {of : ℤ} {pt : Str} {e : Cyphertext}
    {y r : XMLNode} (hcommand : x.server.parse (Session.envelope ⟨kf, of⟩ pt) = .ok y)
    (hy : y.Envelops ⟨kf, of⟩ pt) (he : x.reply (Session.envelope ⟨kf, of⟩ pt) = some e)
    (hanswer : (x.served (Session.envelope ⟨kf, of⟩ pt)).answer =
      Session.envelope e.key e.letters)
    (hreply : x.client.parse (Session.envelope e.key e.letters) = .ok r)
    (hr : r.Envelops e.key e.letters) : x.Reads kf of pt where
  command y' hy' := by
    obtain rfl := Except.ok.inj (hcommand.symm.trans hy')
    exact hy
  reply e' he' := by
    obtain rfl := Option.some.inj (he.symm.trans he')
    exact ⟨r, hreply, hr⟩
  clear y' hy' := by
    rw [hanswer] at hy' ⊢
    obtain rfl := Except.ok.inj (hreply.symm.trans hy')
    refine ⟨[], 111, _, rfl, List.not_mem_nil, fun _ => ?_⟩
    rw [hr.name]
    rfl

end Exchange

/-- The letters of a text under a key of zeros. -/
def zeroLetters (s : Str) : Str := s.flatMap fun c => binEInt c.toNat

/-- The key file `otpcmd` uses when it is not told another one. -/
def oneMeg : Str := str "1meg.txt"

/-- A text under a key of zeros, and its element. -/
def sealedText (of : ℤ) (s : Str) : Str := Session.envelope ⟨oneMeg, of⟩ (zeroLetters s)

def sealedElement (of : ℤ) (s : Str) : XMLNode where
  name := str "otp"
  contents := zeroLetters s
  nodeType := .leaf
  attributes := [(str "keyfile", oneMeg), (str "offset", toStr of)]

/-- A host that knows that text among others, with key files of zeros. -/
def sealedHost (of : ℤ) (s : Str) (documents : List (Str × XMLNode)) : Host :=
  { Host.knowing ((sealedText of s, sealedElement of s) :: documents) with
    keyfile := fun _ => some { bytes := List.replicate 256 0 } }

section Sealed

variable {of : ℤ} {s : Str}

theorem sealedHost_parse (hs : s ≠ []) (documents : List (Str × XMLNode)) :
    (sealedHost of s documents).parse (sealedText of s) = .ok (sealedElement of s) := by
  have hlength : ¬(sealedText of s).length < 3 := by
    simp [sealedText, Session.envelope, str]
  have hletters : (zeroLetters s).isEmpty = false := by
    obtain ⟨c, s, rfl⟩ := List.exists_cons_of_ne_nil hs
    rfl
  unfold Host.parse parseString sealedHost Host.knowing
  simp only [if_neg hlength, List.lookup_cons_self, Option.map_some]
  unfold sealedElement
  simp only [XMLNode.calls, hletters]
  rfl

theorem sealedElement_envelops (hlo : -2147483648 ≤ of) (hhi : of ≤ 2147483647) (s : Str) :
    (sealedElement of s).Envelops ⟨oneMeg, of⟩ (zeroLetters s) := by
  refine ⟨rfl, rfl, ?_, rfl⟩
  rw [toInt_of_mem hlo hhi]
  rfl

theorem sealedHost_decode {x : XMLNode} {documents : List (Str × XMLNode)}
    (hlo : -2147483648 ≤ of) (hhi : of ≤ 2147483647) (hs : s ≠ [])
    (hres : otpD (sealedHost of s documents).keyfile (sealedHost of s documents).junkD
      (sealedHost of s documents).roomD oneMeg of (zeroLetters s) = .ok (0, s))
    (hx : (sealedHost of s documents).parse s = .ok x) :
    (sealedHost of s documents).decode (sealedText of s) =
      .command (some ⟨oneMeg, toLong (of + (zeroLetters s).length)⟩) s x := by
  obtain ⟨hname, hkeyfile, hoffset, hcontents⟩ := sealedElement_envelops hlo hhi s
  have hstol := stol_printed of
  rw [toInt_of_mem hlo hhi] at hoffset hstol
  rw [Session.decode_of_otp (sealedHost_parse hs documents) hname]
  unfold Host.decrypt
  simp only [hoffset, hstol, hkeyfile, hcontents, hres, hx]

end Sealed

/-- The element `<name/>`, which is no command, and the server's answer to it. -/
def unknownCommand (name : Str) : Str := str "<" ++ name ++ str "/>"

def unknownAnswer : Str := (errorResult (str "unknown command")).toStr

/-- A call with that command at the position `of`. -/
def unknownCall (of : ℤ) (name : Str) (ending : Ending) : Exchange where
  client := sealedHost (of + 2 * (unknownCommand name).length) unknownAnswer []
  server := sealedHost of (unknownCommand name) [(unknownCommand name, { name })]
  cfg := Session.localOnly
  peer := Session.localhost
  process := .configured []
  stdin := unknownCommand name ++ str "\n"
  stdin_ne_nil := by simp [unknownCommand, str]
  ending

/-- The reply to it. -/
def unknownReply (of : ℤ) (name : Str) : Cyphertext :=
  ⟨⟨oneMeg, of + 2 * (unknownCommand name).length⟩, unknownAnswer, zeroLetters unknownAnswer⟩

/-- Both ends have a key for the call, and read what the other one sends. -/
structure Served (of : ℤ) (name : Str) : Prop where
  lo : -2147483648 ≤ of
  hi : of + 2 * (unknownCommand name).length ≤ 2147483647
  name_ne : name ≠ str "scheduler"
  command_eq : command (unknownCommand name ++ str "\n") = unknownCommand name
  encrypt : (unknownCall of name .sent).encrypt oneMeg of =
    .ok (0, zeroLetters (unknownCommand name))
  decrypt : otpD (unknownCall of name .sent).server.keyfile (unknownCall of name .sent).server.junkD
    (unknownCall of name .sent).server.roomD oneMeg of (zeroLetters (unknownCommand name)) =
      .ok (0, unknownCommand name)
  parse : (unknownCall of name .sent).server.parse (unknownCommand name) =
    .ok ⟨name, [], .leaf, [], []⟩
  reply : (unknownCall of name .sent).reply (sealedText of (unknownCommand name)) =
    some (unknownReply of name)

namespace Served

variable {of : ℤ} {name : Str} (h : Served of name) (ending : Ending)

include h

theorem encrypt_eq {pt : Str} (hpt : (unknownCall of name ending).encrypt oneMeg of = .ok (0, pt)) :
    pt = zeroLetters (unknownCommand name) :=
  (Prod.mk.inj (Except.ok.inj (hpt.symm.trans h.encrypt))).2

theorem reply_eq {e : Cyphertext}
    (he : (unknownCall of name ending).reply (sealedText of (unknownCommand name)) = some e) :
    e = unknownReply of name :=
  Option.some.inj (he.symm.trans h.reply)

/-- The server decrypts the command, and it is no `<scheduler>` element. -/
theorem alone (key : Option OtpKey) (text : Str) (y : XMLNode)
    (hdecode : (unknownCall of name ending).server.decode (sealedText of (unknownCommand name)) =
      .command key text y) (i : ℕ) : ¬y.Discloses (unknownCall of name ending).process i := by
  have hhi := h.hi
  have hcommand := sealedHost_decode h.lo (by omega) (by simp [unknownCommand, str]) h.decrypt
    h.parse
  obtain ⟨-, -, rfl⟩ := Decoded.command.inj (hcommand.symm.trans hdecode)
  rintro ⟨⟨hy, -⟩, -⟩
  exact h.name_ne hy

theorem reads :
    (unknownCall of name ending).Reads oneMeg of (zeroLetters (unknownCommand name)) := by
  have hlo := h.lo
  have hhi := h.hi
  have hreply : (unknownCall of name ending).reply (sealedText of (unknownCommand name)) = _ :=
    h.reply
  have hanswer := Session.answer_of_encrypted hreply (fun text y => h.alone ending _ text y) rfl
  exact Exchange.reads_of_replied (sealedHost_parse (by simp [unknownCommand, str]) _)
    (sealedElement_envelops hlo (by omega) _) hreply hanswer (sealedHost_parse (by decide) _)
    (sealedElement_envelops (by omega) hhi _)

theorem readBack {σ σ' : Pad} (hof : σ.of = of) :
    Pad.ReadBack oneMeg σ (unknownCall of name ending) σ' := by
  intro pt hpt
  rw [hof] at hpt ⊢
  obtain rfl := h.encrypt_eq ending hpt
  exact h.reads ending

/-- A call whose client gets the whole answer leaves a position behind it. -/
theorem settled {σ σ' : Pad} (hof : σ.of = of) :
    Pad.Settled oneMeg σ (unknownCall of name (.whole false)) σ' := by
  intro pt hpt
  rw [hof] at hpt ⊢
  obtain rfl := h.encrypt_eq _ hpt
  have hlo := h.lo
  have hhi := h.hi
  have hstdin : command (unknownCall of name (.whole false)).stdin = unknownCommand name :=
    h.command_eq
  have hanswer : (unknownReply of name).letters.length = 116 := by
    show (zeroLetters unknownAnswer).length = 116
    decide
  refine ⟨by rw [hstdin]; omega, fun e he => ?_, fun hno => ?_⟩
  · obtain rfl := h.reply_eq _ he
    exact ⟨rfl, rfl, h.alone _, by rw [hstdin]; omega, by rw [hstdin, hanswer]; omega⟩
  · exact absurd (h.reply.symm.trans hno) (Option.some_ne_none _)

end Served

/-- The first call, and a longer one at the position that it stores before its answer. -/
def firstCall (ending : Ending) : Exchange := unknownCall 0 (str "a") ending

def nextCall (ending : Ending) : Exchange := unknownCall 4 (str "aa") ending

/-- A longer call at the position behind that answer. -/
def laterCall (ending : Ending) : Exchange := unknownCall 124 (str "aa") ending

theorem firstCall_served : Served 0 (str "a") where
  lo := by decide
  hi := by decide
  name_ne := by decide
  command_eq := by rfl
  encrypt := by rfl
  decrypt := by rfl
  parse := by rfl
  reply := by rfl

theorem nextCall_served : Served 4 (str "aa") where
  lo := by decide
  hi := by decide
  name_ne := by decide
  command_eq := by rfl
  encrypt := by rfl
  decrypt := by rfl
  parse := by rfl
  reply := by rfl

theorem laterCall_served : Served 124 (str "aa") where
  lo := by decide
  hi := by decide
  name_ne := by decide
  command_eq := by rfl
  encrypt := by rfl
  decrypt := by rfl
  parse := by rfl
  reply := by rfl

/-! ## Runs -/

namespace Pad

/-- No byte of the key file is used twice in a run in which every exchange leaves a position behind
what it used. -/
theorem pad_used_once (kf : Str) (xs : List Exchange) (posfile : Option Str)
    (hreads : (machine kf).Along (ReadBack kf) xs { posfile })
    (hsettled : (machine kf).Along (Settled kf) xs { posfile }) :
    (machine kf).Always (fun σ => Apart σ.uses) xs { posfile } :=
  (always_takes hreads hsettled).mono fun _ htakes => htakes.pairwise

/-- Two calls whose clients get their answers; the second one starts behind the first answer. -/
def finished : List Exchange := [firstCall (.whole false), laterCall (.whole false)]

/-- The key file after the first and after both calls. -/
def finishedPads : Pad × Pad :=
  (⟨some (posText 124), [(0, 4), (8, 66)]⟩,
    ⟨some (posText 250), [(0, 4), (8, 66), (124, 129), (134, 192)]⟩)

theorem machine_step (kf : Str) (x : Exchange) (σ : Pad) :
    (machine kf).step x σ = exchange kf x σ := rfl

theorem finishedPads_of : finishedPads.1.of = 124 := by decide

set_option maxRecDepth 4000 in
theorem finished_exchange :
    exchange oneMeg (firstCall (.whole false)) {} = .ok finishedPads.1 ∧
      exchange oneMeg (laterCall (.whole false)) finishedPads.1 = .ok finishedPads.2 :=
  ⟨by rfl, by rfl⟩

theorem pad_used_once_finished :
    (machine oneMeg).Always (fun σ => Apart σ.uses) finished {} ∧
      exchange oneMeg (firstCall (.whole false)) {} = .ok finishedPads.1 ∧
        exchange oneMeg (laterCall (.whole false)) finishedPads.1 = .ok finishedPads.2 := by
  refine ⟨pad_used_once oneMeg _ none ?_ ?_, finished_exchange⟩
  · intro σ hσ
    rw [machine_step, finished_exchange.1] at hσ
    obtain rfl := Except.ok.inj hσ
    exact ⟨firstCall_served.readBack _ rfl, fun σ' _ =>
      ⟨laterCall_served.readBack _ finishedPads_of, trivial⟩⟩
  · intro σ hσ
    rw [machine_step, finished_exchange.1] at hσ
    obtain rfl := Except.ok.inj hσ
    exact ⟨firstCall_served.settled rfl, fun σ' _ =>
      ⟨laterCall_served.settled finishedPads_of, trivial⟩⟩

/-- Two calls whose client is killed when it waits for the answer. -/
def interrupted : List Exchange := [firstCall .waiting, nextCall .waiting]

/-- The second command is encrypted with the first byte of the first reply. -/
theorem pad_used_once_fails :
    (machine oneMeg).Along (ReadBack oneMeg) interrupted {} ∧
      ¬(machine oneMeg).Always (fun σ => Apart σ.uses) interrupted {} := by
  have hstart : (firstCall .waiting).encrypt oneMeg ({} : Pad).of = .ok (0, _) :=
    firstCall_served.encrypt
  obtain ⟨σ₁, hfirst, hof, huses⟩ :=
    exchange_waiting rfl hstart firstCall_served.reply (by decide)
  have hof : σ₁.of = 4 := hof
  have huses : σ₁.uses = [(0, 4), (8, 66)] := huses
  constructor
  · intro σ hσ
    obtain rfl := Except.ok.inj (hfirst.symm.trans hσ)
    exact ⟨firstCall_served.readBack _ rfl, fun σ _ => ⟨nextCall_served.readBack _ hof, trivial⟩⟩
  · intro h
    have hnext : (nextCall .waiting).encrypt oneMeg σ₁.of =
        .ok (0, zeroLetters (unknownCommand (str "aa"))) := by
      rw [hof]
      exact nextCall_served.encrypt
    have hreply : (nextCall .waiting).reply (Session.envelope ⟨oneMeg, σ₁.of⟩
        (zeroLetters (unknownCommand (str "aa")))) = some (unknownReply 4 (str "aa")) := by
      rw [hof]
      exact nextCall_served.reply
    obtain ⟨σ₂, hnext, -, huses₂⟩ := exchange_waiting rfl hnext hreply (by rw [hof]; decide)
    have huses₂ : σ₂.uses = [(0, 4), (8, 66), (4, 9), (14, 72)] := by
      rw [huses₂, huses, hof]
      rfl
    have hapart : Apart σ₂.uses := (h.2 σ₁ hfirst).2 σ₂ hnext
    rw [huses₂] at hapart
    have hbyte := List.rel_of_pairwise_cons hapart.of_cons List.mem_cons_self
    exact hbyte 8 (by decide) (by decide) (by decide) (by decide)

end Pad

end Peter
