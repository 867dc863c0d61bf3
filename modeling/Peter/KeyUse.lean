import Peter.Lookups
import Peter.Otpcmd

/-!
# What stands behind a success

`otp_e` and `otp_d` return 0 for success.  `otp_e` looks at `eof()` after the read, `otp_d` at
nothing, and neither at the positioning before it.  `Gives` says that a byte of the key comes from
the file, whatever the memory of the buffer held before; `success_iff` when a success means that
all of them do, on the way of the two functions and of the socket thread and `otpcmd` that call
them.
-/

namespace Peter

/-! ## The bytes of a read -/

namespace Keyfile

/-- After a read of `len` bytes the buffer has at place `i` the byte of the file at the offset plus
`i`, whatever the memory held before. -/
def Gives (f : Keyfile) (of : ℤ) (len i : ℕ) : Prop :=
  0 ≤ of ∧ ∃ b, f.bytes[of.toNat + i]? = some b ∧ ∀ junk, buffer junk (f.read of len).1 i = b

/-- The system can position the file there. -/
def Readable (f : Keyfile) (of : ℤ) : Prop := 0 ≤ of ∧ f.canRead of = true

/-- The file holds `n` bytes from the offset on. -/
def Holds (f : Keyfile) (of : ℤ) (n : ℕ) : Prop :=
  n = 0 ∨ f.Readable of ∧ of.toNat + n ≤ f.bytes.length

variable {f : Keyfile} {of : ℤ}

theorem read_of_readable (h : f.Readable of) (len : ℕ) :
    f.read of len = ((f.bytes.drop of.toNat).take len,
      decide (((f.bytes.drop of.toNat).take len).length < len)) := by
  unfold read
  rw [if_neg (by simpa [h.2] using h.1)]

theorem read_of_not_readable (h : ¬f.Readable of) (len : ℕ) : f.read of len = ([], false) := by
  unfold read
  apply if_pos
  unfold Readable at h
  by_cases hof : of < 0
  · exact Or.inl hof
  · exact Or.inr (by simpa using fun hread => h ⟨by omega, hread⟩)

/-- Of the bytes asked for the file gives those it has behind the offset, if it can be
positioned. -/
theorem gives_iff {len i : ℕ} (hi : i < len) :
    f.Gives of len i ↔ f.Readable of ∧ of.toNat + i < f.bytes.length := by
  constructor
  · rintro ⟨hof, b, hb, hbuf⟩
    have hlt : of.toNat + i < f.bytes.length := (List.getElem?_eq_some_iff.mp hb).1
    refine ⟨?_, hlt⟩
    by_contra hread
    rw [read_of_not_readable hread] at hbuf
    have h1 : b + 1 = b := hbuf fun _ => b + 1
    simp at h1
  · rintro ⟨hread, hlt⟩
    refine ⟨hread.1, f.bytes.get ⟨of.toNat + i, hlt⟩, List.getElem?_eq_getElem hlt, fun junk => ?_⟩
    rw [read_of_readable hread, buffer, List.getD_eq_getElem?_getD, List.getElem?_take_of_lt hi,
      List.getElem?_drop, List.getElem?_eq_getElem hlt]
    rfl

theorem forall_gives_iff {len n : ℕ} (hn : n ≤ len) :
    (∀ i < n, f.Gives of len i) ↔ f.Holds of n := by
  constructor
  · intro h
    rcases n with _ | n
    · exact Or.inl rfl
    · have hlast := (gives_iff (by omega)).mp (h n (Nat.lt_succ_self n))
      exact Or.inr ⟨hlast.1, by omega⟩
  · rintro (rfl | ⟨hread, hle⟩) i hi
    · exact absurd hi (Nat.not_lt_zero i)
    · exact (gives_iff (by omega)).mpr ⟨hread, by omega⟩

/-- A read without an end of file had all its bytes. -/
theorem holds_of_read {n : ℕ} (hread : f.Readable of) (heof : (f.read of n).2 = false) :
    f.Holds of n := by
  rw [read_of_readable hread] at heof
  simp only [decide_eq_false_iff_not, List.length_take, List.length_drop] at heof
  by_cases hz : n = 0
  · exact .inl hz
  · exact .inr ⟨hread, by omega⟩

/-- Both functions have the bytes of the file in their buffers. -/
theorem Holds.getElem? {n len i : ℕ} (h : f.Holds of n) (hn : n ≤ len) (hi : i < n)
    (junk : ℕ → UInt8) : f.bytes[of.toNat + i]? = some (buffer junk (f.read of len).1 i) := by
  obtain ⟨-, b, hb, hbuf⟩ := (forall_gives_iff hn).2 h i hi
  rw [hb, hbuf junk]

end Keyfile

/-- The first `n` bytes of the key are those of the key file from the offset on, when `len` were
asked for. -/
def KeyRead (keyfile : Str → Option Keyfile) (kf : Str) (of : ℤ) (len n : ℕ) : Prop :=
  ∃ f, keyfile kf = some f ∧ ∀ i < n, f.Gives of len i

theorem keyRead_iff {keyfile : Str → Option Keyfile} {kf : Str} {f : Keyfile}
    (hf : keyfile kf = some f) (of : ℤ) {len n : ℕ} (hn : n ≤ len) :
    KeyRead keyfile kf of len n ↔ f.Holds of n := by
  rw [← Keyfile.forall_gives_iff hn]
  constructor
  · rintro ⟨f', hf', h⟩
    rw [hf] at hf'
    cases hf'
    exact h
  · exact fun h => ⟨f, hf, h⟩

/-! ## Success -/

/-- `otp_e` returns, and a success of it has the key behind it, when the text needs no key, or the
key file can be positioned and ends too early or the text has 7 bits. -/
theorem otpE_success_iff (keyfile : Str → Option Keyfile) (junk : ℕ → UInt8) (kf : Str) (of : ℤ)
    (pt : Str) :
    (Encrypts keyfile kf of pt ∧ ∀ cy, otpE keyfile junk kf of pt = .ok (0, cy) →
        KeyRead keyfile kf of pt.length (cStr pt).length) ↔
      ∀ f, keyfile kf = some f → cStr pt = [] ∨ f.Readable of ∧
        (f.bytes.length < of.toNat + pt.length ∨ ∀ p ∈ cStr pt, p.toNat < 128) := by
  cases hf : keyfile kf with
  | none =>
    rw [otpE_none hf]
    simp [Encrypts, hf]
  | some f =>
    have hzero := otpE_eq_zero_iff hf junk of pt
    have hkey := keyRead_iff hf of (length_cStr_le pt)
    have hlen := length_cStr_le pt
    simp only [Encrypts, hf, Option.some.injEq, forall_eq']
    constructor
    · rintro ⟨hdef, hs⟩
      by_cases hnil : cStr pt = []
      · exact Or.inl hnil
      · right
        by_cases hread : f.Readable of
        · refine ⟨hread, hdef.imp_left fun heof => ?_⟩
          rw [Keyfile.read_of_readable hread] at heof
          simp only [decide_eq_true_eq, List.length_take, List.length_drop] at heof
          have hpos := List.length_pos_iff.2 hnil
          omega
        · -- a file that was not positioned gives no end of file and no key
          have heof : (f.read of pt.length).2 = false := by rw [Keyfile.read_of_not_readable hread]
          have hbits := hdef.resolve_left (by simp [heof])
          obtain ⟨cy, hcy⟩ := hzero.2 ⟨heof, hbits⟩
          rcases hkey.1 (hs cy hcy) with h0 | h1
          · exact absurd (List.length_eq_zero_iff.1 h0) hnil
          · exact absurd h1.1 hread
    · intro hcond
      by_cases hnil : cStr pt = []
      · refine ⟨Or.inr (by simp [hnil]), fun cy _ => hkey.2 (Or.inl ?_)⟩
        rw [hnil]
        rfl
      · obtain ⟨hread, hcond⟩ := hcond.resolve_left hnil
        have hpos := List.length_pos_iff.2 hnil
        have heof : (f.read of pt.length).2 = true ↔
            f.bytes.length - of.toNat < pt.length := by
          rw [Keyfile.read_of_readable hread]
          simp only [decide_eq_true_eq, List.length_take, List.length_drop]
          omega
        refine ⟨hcond.imp_left fun hshort => heof.2 (by omega), fun cy hcy => hkey.2 ?_⟩
        have hnot := (hzero.1 ⟨cy, hcy⟩).1
        have hle : ¬f.bytes.length - of.toNat < pt.length := fun hlt => by
          rw [heof.2 hlt] at hnot
          cases hnot
        exact Or.inr ⟨hread, by omega⟩

/-- `otp_d` returns, and a success of it has the key behind it, when the key file holds a byte for
every pair of characters and nothing is undefined. -/
theorem otpD_success_iff (keyfile : Str → Option Keyfile) (junk : ℕ → UInt8) (room : ℕ → Bool)
    (kf : Str) (of : ℤ) (cy : Str) :
    (Decrypts keyfile junk room kf of cy ∧ ∀ pt, otpD keyfile junk room kf of cy = .ok (0, pt) →
        KeyRead keyfile kf of cy.length pt.length) ↔
      ∀ f, keyfile kf = some f → f.Holds of (pairCount (cy ++ [0])) ∧ room cy.length = true ∧
        ¬Undefined (buffer junk (f.read of cy.length).1) cy := by
  cases hf : keyfile kf with
  | none =>
    rw [otpD_none hf]
    simp [Decrypts, hf]
  | some f =>
    have hkey := keyRead_iff hf of (pairCount_le cy)
    have hdec : Decrypts keyfile junk room kf of cy ↔
        room cy.length = true ∧ ¬Undefined (buffer junk (f.read of cy.length).1) cy := by
      simp [Decrypts, hf]
    simp only [Option.some.injEq, forall_eq', ← hdec, and_comm (a := f.Holds of _)]
    refine and_congr_right fun hdef => ?_
    obtain ⟨pt, hpt, hlen⟩ :=
      ((otpD_cases hf junk room of cy).resolve_left fun hbad => hbad.1 hdef).2
    rw [hpt]
    constructor
    · intro hs
      have hread := hs pt rfl
      rwa [hlen, hkey] at hread
    · intro hholds pt' hpt'
      cases hpt'
      rwa [hlen, hkey]

/-- `otp_d` returns something else than 0 only without a key file. -/
theorem keyfile_eq_none {keyfile : Str → Option Keyfile} {kf : Str} {of : ℤ} {cy : Str}
    (hs : ∀ f, keyfile kf = some f → f.Holds of (pairCount (cy ++ [0])))
    (hkey : ¬KeyRead keyfile kf of cy.length (pairCount (cy ++ [0]))) : keyfile kf = none := by
  cases hf : keyfile kf with
  | none => rfl
  | some f => exact absurd ((keyRead_iff hf of (pairCount_le cy)).2 (hs f hf)) hkey

/-! ## The callers -/

/-- What `main` of `otpcmd` prints for an answer. -/
def Host.printed (h : Host) (answer : Str) : Except Halt Str :=
  if answer = str "2" then .ok (str "ERROR: keyfile too short.\n")
  else match h.parse answer with
    | .error .parseError => .ok (str "ERROR: did not get parsable result.\n")
    | .error .undefined => .error .undefined
    | .ok x =>
      if x.name = str "otp" then
        match stol (x.getAttribute (str "offset") (str "0")) with
        | none => .error .terminated
        | some of =>
          let keyfile := x.getAttribute (str "keyfile") (str "otp.txt")
          match otpD h.keyfile h.junkD h.roomD keyfile of x.contents with
          | .error halt => .error halt
          | .ok (res, pt) => .ok (if res > 0 then str "Encryption error.\n" else pt)
      else .ok []

/-- An `<otp>` element for the text `cy` under the key `kf` from `of` on. -/
structure XMLNode.Encloses (x : XMLNode) (kf : Str) (of : ℤ) (cy : Str) : Prop where
  name : x.name = str "otp"
  keyfile : x.getAttribute (str "keyfile") (str "otp.txt") = kf
  offset : stol (x.getAttribute (str "offset") (str "0")) = some of
  contents : x.contents = cy

/-- `otp_e` returns, and a success of it has the key behind it; without the key the socket thread
sends `2` and `otpcmd` sends no command. -/
structure Host.EncryptSafe (h : Host) (kf : Str) (of : ℤ) (pt : Str) : Prop where
  result : ∃ r, otpE h.keyfile h.junkE kf of pt = .ok r
  success : ∀ cy, otpE h.keyfile h.junkE kf of pt = .ok (0, cy) →
    KeyRead h.keyfile kf of pt.length (cStr pt).length
  socket : ¬KeyRead h.keyfile kf of pt.length (cStr pt).length →
    ∀ c : Session, c.reply h (some ⟨kf, of⟩) pt = (c.send h (str "2")).2.close
  client : ¬KeyRead h.keyfile kf of pt.length (cStr pt).length →
    ∀ (x : Exchange) (σ : Pad), x.client = h → command x.stdin = pt → σ.of = of →
      Pad.exchange kf x σ = .ok σ

/-- `otp_d` returns, and a success of it has the key behind it; without the key the socket thread
takes the message for no XML and `otpcmd` prints an error. -/
structure Host.DecryptSafe (h : Host) (kf : Str) (of : ℤ) (cy : Str) : Prop where
  result : ∃ r, otpD h.keyfile h.junkD h.roomD kf of cy = .ok r
  success : ∀ pt, otpD h.keyfile h.junkD h.roomD kf of cy = .ok (0, pt) →
    KeyRead h.keyfile kf of cy.length pt.length
  socket : ¬KeyRead h.keyfile kf of cy.length (pairCount (cy ++ [0])) →
    ∀ x : XMLNode, x.Encloses kf of cy → h.decrypt x = .parseError true
  client : ¬KeyRead h.keyfile kf of cy.length (pairCount (cy ++ [0])) →
    ∀ (answer : Str) (x : XMLNode), answer ≠ str "2" → h.parse answer = .ok x →
      x.Encloses kf of cy → h.printed answer = .ok (str "Encryption error.\n")

namespace Host

variable {h : Host} {kf : Str} {of : ℤ}

/-- The socket thread sends `2` in place of a text that was not encrypted. -/
theorem reply_of_failure {pt cy : Str} {res : ℕ}
    (he : otpE h.keyfile h.junkE kf of pt = .ok (res, cy)) (hres : res ≠ 0) (c : Session) :
    c.reply h (some ⟨kf, of⟩) pt = (c.send h (str "2")).2.close := by
  simp only [Session.reply, he]
  rw [if_pos (Nat.pos_of_ne_zero hres)]

/-- `otpcmd` sends nothing and leaves its position when the command was not encrypted. -/
theorem exchange_of_failure {pt cy : Str} {res : ℕ}
    (he : otpE h.keyfile h.junkE kf of pt = .ok (res, cy)) (hres : res ≠ 0) {x : Exchange} {σ : Pad}
    (hclient : x.client = h) (hpt : command x.stdin = pt) (hof : σ.of = of) :
    Pad.exchange kf x σ = .ok σ := by
  subst hclient hpt hof
  simp only [Pad.exchange, Exchange.encrypt, he]
  rw [if_pos (Nat.pos_of_ne_zero hres)]

/-- Without a key file there is no text, and no text is no XML. -/
theorem decrypt_of_none (hf : h.keyfile kf = none) {cy : Str} {x : XMLNode}
    (hx : x.Encloses kf of cy) : h.decrypt x = .parseError true := by
  have hd := otpD_none hf h.junkD h.roomD of cy
  rw [← hx.keyfile, ← hx.contents] at hd
  simp only [Host.decrypt, hx.offset, hd, Host.parse, parseString]
  rfl

theorem printed_of_none (hf : h.keyfile kf = none) {cy answer : Str} {x : XMLNode}
    (hanswer : answer ≠ str "2") (hparse : h.parse answer = .ok x) (hx : x.Encloses kf of cy) :
    h.printed answer = .ok (str "Encryption error.\n") := by
  have hd := otpD_none hf h.junkD h.roomD of cy
  rw [← hx.keyfile, ← hx.contents] at hd
  unfold printed
  rw [if_neg hanswer, hparse]
  dsimp only
  rw [if_pos hx.name, hx.offset]
  dsimp only
  rw [hd]
  rfl

end Host

/-- For every key file, offset and text: `otp_e` returns and it and its callers succeed only with
the key when the text needs no key, or the key file can be positioned there and ends too early or
the text has 7 bits; `otp_d` returns and it and its callers do when the file holds a byte for every
pair of characters, the zero behind the buffer has room and no read or lookup is outside. -/
theorem success_iff (h : Host) (kf : Str) (of : ℤ) (text : Str) :
    (h.EncryptSafe kf of text ↔ ∀ f, h.keyfile kf = some f → cStr text = [] ∨ f.Readable of ∧
      (f.bytes.length < of.toNat + text.length ∨ ∀ p ∈ cStr text, p.toNat < 128)) ∧
    (h.DecryptSafe kf of text ↔ ∀ f, h.keyfile kf = some f →
      f.Holds of (pairCount (text ++ [0])) ∧ h.roomD text.length = true ∧
        ¬Undefined (buffer h.junkD (f.read of text.length).1) text) := by
  have he := otpE_success_iff h.keyfile h.junkE kf of text
  have hd := otpD_success_iff h.keyfile h.junkD h.roomD kf of text
  rw [← exists_otpE_iff h.keyfile h.junkE] at he
  rw [← exists_otpD_iff] at hd
  constructor
  · rw [← he]
    refine ⟨fun hs => ⟨hs.result, hs.success⟩, fun ⟨hres, hs⟩ => ⟨hres, hs, ?_, ?_⟩⟩
    · intro hkey c
      obtain ⟨⟨res, cy⟩, hcy⟩ := hres
      refine Host.reply_of_failure hcy ?_ c
      rintro rfl
      exact hkey (hs cy hcy)
    · intro hkey x σ hclient hpt hof
      obtain ⟨⟨res, cy⟩, hcy⟩ := hres
      refine Host.exchange_of_failure hcy ?_ hclient hpt hof
      rintro rfl
      exact hkey (hs cy hcy)
  · constructor
    · exact fun hs => hd.1 ⟨hs.result, hs.success⟩
    · intro hcond
      obtain ⟨hres, hs⟩ := hd.2 hcond
      refine ⟨hres, hs, fun hkey x hx => ?_, fun hkey answer x hanswer hparse hx => ?_⟩
      · have hnone := keyfile_eq_none (fun f hf => (hcond f hf).1) hkey
        exact Host.decrypt_of_none hnone hx
      · have hnone := keyfile_eq_none (fun f hf => (hcond f hf).1) hkey
        exact Host.printed_of_none hnone hanswer hparse hx

/-- With a key file of one byte `otp_d` succeeds on eight letters, and two bytes that are no letters
are looked up behind the matrix; with a negative offset `otp_e` succeeds without a key, and a letter
with an accent is looked up below the matrix. -/
theorem success_without_key :
    let h : Host := { keyfile := fun _ => some { bytes := [0] }, junkD := fun _ => 1 }
    (otpD h.keyfile h.junkD h.roomD (str "otp.txt") 0 (str "GAGEFIGD") = .ok (0, str "qths") ∧
        ¬h.DecryptSafe (str "otp.txt") 0 (str "GAGEFIGD")) ∧
      (otpD h.keyfile h.junkD h.roomD (str "otp.txt") 0 [127, 127] = .error .undefined ∧
        ¬h.DecryptSafe (str "otp.txt") 0 [127, 127]) ∧
      (otpE h.keyfile h.junkE (str "otp.txt") (-1) (str "quit") = .ok (0, str "GAGEFIGD") ∧
        ¬h.EncryptSafe (str "otp.txt") (-1) (str "quit")) ∧
      otpE h.keyfile h.junkE (str "otp.txt") (-1) [195, 169] = .error .undefined ∧
        ¬h.EncryptSafe (str "otp.txt") (-1) [195, 169] := by
  intro h
  have hd : otpD h.keyfile h.junkD h.roomD (str "otp.txt") 0 (str "GAGEFIGD") =
      .ok (0, str "qths") := by
    change otpD (fun _ => some { bytes := [0] }) (fun _ => 1) chunkRoom _ _ _ = _
    rfl
  have hd' : otpD h.keyfile h.junkD h.roomD (str "otp.txt") 0 [127, 127] = .error .undefined := by
    change otpD (fun _ => some { bytes := [0] }) (fun _ => 1) chunkRoom _ _ _ = _
    rfl
  have he : otpE h.keyfile h.junkE (str "otp.txt") (-1) (str "quit") =
      .ok (0, str "GAGEFIGD") := by
    change otpE (fun _ => some { bytes := [0] }) (fun _ => 0) _ _ _ = _
    rfl
  have he' : otpE h.keyfile h.junkE (str "otp.txt") (-1) [195, 169] = .error .undefined := by
    change otpE (fun _ => some { bytes := [0] }) (fun _ => 0) _ _ _ = _
    rfl
  have hfile : h.keyfile (str "otp.txt") = some { bytes := [0] } := rfl
  refine ⟨⟨hd, fun hs => ?_⟩, ⟨hd', fun hs => ?_⟩, ⟨he, fun hs => ?_⟩, he', fun hs => ?_⟩
  · have hread := (keyRead_iff hfile 0 (by decide)).mp (hs.success _ hd)
    rcases hread with h0 | ⟨-, hle⟩
    · exact absurd h0 (by decide)
    · exact absurd hle (by decide)
  · obtain ⟨r, hr⟩ := hs.result
    rw [hd'] at hr
    cases hr
  · have hread := (keyRead_iff hfile (-1) (by decide)).mp (hs.success _ he)
    rcases hread with h0 | ⟨hpos, -⟩
    · exact absurd h0 (by decide)
    · exact absurd hpos.1 (by decide)
  · obtain ⟨r, hr⟩ := hs.result
    rw [he'] at hr
    cases hr

end Peter
