import Peter.Sealed

/-!
# What the pad does not do

A key byte of 8 bits is added in a neighbouring row of the matrix and taken off in another one, so
that the text comes back in exactly the cases in which the key has 7 bits and `otp_d` has room for
its zero (`roundTrip_iff`).  The letters are sums and no more: who knows the text of some letters has
the letters of every other text of its length, and the server carries it out (`forged_effect`).  Nor
is a sum reduced: two texts can be told apart by the letters that are possible for them
(`possible_congr_iff`).
-/

namespace Peter

/-! ## Keys of 8 bits -/

section HighKey

variable {p k : UInt8}

theorem charVal_of_ge (h : 128 ≤ k.toNat) : charVal k = k.toNat - 256 :=
  if_neg (by omega)

/-- With such a key byte the sum stands in the row before. -/
theorem lookup_lAdd_high (hp : 1 ≤ p.toNat ∧ p.toNat ≤ 127) (hk : 128 ≤ k.toNat) :
    lookup lAdd (charVal p) (charVal k) = .ok ((p.toNat - 1 + k.toNat) % 256) := by
  have hlt := k.toNat_lt
  have hrow : (256 * (p.toNat : ℤ) + (k.toNat - 256)).toNat = 256 * (p.toNat - 1) + k.toNat := by
    omega
  rw [charVal_of_lt (by omega), charVal_of_ge hk]
  unfold lookup
  dsimp only
  rw [if_pos (by omega), hrow, Nat.mul_add_div (by decide), Nat.div_eq_of_lt (by omega),
    Nat.mul_add_mod, Nat.mod_eq_of_lt (by omega), Nat.add_zero]
  rfl

/-- And the difference in the row before that, if there is one. -/
theorem lookup_lSub_high {c : ℕ} (hc : c < 256) (hk : 128 ≤ k.toNat) {d : ℕ}
    (h : lookup lSub (c : ℤ) (charVal k) = .ok d) : 1 ≤ c ∧ d = lSub (c - 1) k.toNat := by
  have hlt := k.toNat_lt
  rw [charVal_of_ge hk] at h
  unfold lookup at h
  dsimp only at h
  split_ifs at h with hin
  have hpos : 1 ≤ c := by omega
  have hrow : (256 * (c : ℤ) + (k.toNat - 256)).toNat = 256 * (c - 1) + k.toNat := by omega
  rw [hrow, Nat.mul_add_div (by decide), Nat.div_eq_of_lt (by omega), Nat.mul_add_mod,
    Nat.mod_eq_of_lt (by omega), Nat.add_zero] at h
  exact ⟨hpos, (Except.ok.inj h).symm⟩

/-- The character that comes back is another one. -/
theorem lSub_high_ne (hp : 1 ≤ p.toNat ∧ p.toNat ≤ 127)
    (hpos : 1 ≤ (p.toNat - 1 + k.toNat) % 256) :
    UInt8.ofNat (lSub ((p.toNat - 1 + k.toNat) % 256 - 1) k.toNat) ≠ p := by
  have hlt := k.toNat_lt
  intro h
  have hval := congrArg UInt8.toNat h
  unfold lSub at hval
  split_ifs at hval <;> rw [UInt8.toNat_ofNat'] at hval <;> omega

end HighKey

/-- The text that comes back tells that the key bytes have 7 bits. -/
theorem key_of_otpDChar_otpEChar {otp otp' : ℕ → UInt8} {pt cy : Str} {i : ℕ}
    (hpt : ∀ p ∈ pt, 1 ≤ p.toNat ∧ p.toNat ≤ 127)
    (hsame : ∀ n < pt.length, otp' (i + n) = otp (i + n))
    (hcy : otpEChar otp pt i = .ok cy) (hres : otpDChar otp' (cy ++ [0]) i = .ok pt) :
    ∀ n < pt.length, (otp (i + n)).toNat < 128 := by
  induction pt generalizing i cy with
  | nil => exact fun n hn => absurd hn (Nat.not_lt_zero n)
  | cons p pt ih =>
    obtain ⟨hp, hpt⟩ := List.forall_mem_cons.1 hpt
    have hsame0 : otp' i = otp i := hsame 0 (Nat.succ_pos _)
    rw [otpEChar] at hcy
    cases hc : lookup lAdd (charVal p) (charVal (otp i)) with
    | error halt => simp [hc] at hcy
    | ok c =>
      cases hrest : otpEChar otp pt (i + 1) with
      | error halt => simp [hc, hrest] at hcy
      | ok rest =>
        simp only [hc, hrest] at hcy
        obtain rfl := Except.ok.inj hcy
        have hlt : c < 256 := by
          unfold lookup at hc
          dsimp only at hc
          split_ifs at hc
          rw [← Except.ok.inj hc]
          exact Nat.mod_lt _ (by decide)
        replace hres : otpDChar otp' (_ :: _ :: (rest ++ [0])) i = .ok (p :: pt) := hres
        rw [otpDChar, if_neg (letter_ne_zero (by omega)), binDInt_binEInt hlt, hsame0] at hres
        cases hd : lookup lSub (c : ℤ) (charVal (otp i)) with
        | error halt => simp [hd] at hres
        | ok d =>
          cases hrest' : otpDChar otp' (rest ++ [0]) (i + 1) with
          | error halt => simp [hd, hrest'] at hres
          | ok pt' =>
            simp only [hd, hrest'] at hres
            obtain ⟨hdp, rfl⟩ := List.cons.inj (Except.ok.inj hres)
            have hplace : ∀ n, i + 1 + n = i + (n + 1) := fun n => by omega
            have hih := ih (i := i + 1) hpt
              (fun n hn => by rw [hplace]; exact hsame (n + 1) (Nat.succ_lt_succ hn)) hrest hrest'
            intro n hn
            cases n with
            | succ n => exact hplace n ▸ hih n (Nat.lt_of_succ_lt_succ hn)
            | zero =>
              by_contra hhigh
              have hk : 128 ≤ (otp i).toNat := Nat.le_of_not_lt hhigh
              obtain rfl := Except.ok.inj ((lookup_lAdd_high hp hk).symm.trans hc)
              obtain ⟨hpos, rfl⟩ := lookup_lSub_high hlt hk hd
              exact lSub_high_ne hp hpos hdp

theorem length_otpDChar_otpEChar {otp otp' : ℕ → UInt8} {pt cy res : Str} {i : ℕ}
    (hcy : otpEChar otp pt i = .ok cy) (hres : otpDChar otp' (cy ++ [0]) i = .ok res) :
    res.length = pt.length := by
  induction pt generalizing i cy res with
  | nil =>
    obtain rfl := Except.ok.inj hcy
    obtain rfl := Except.ok.inj hres
    rfl
  | cons p pt ih =>
    rw [otpEChar] at hcy
    cases hc : lookup lAdd (charVal p) (charVal (otp i)) with
    | error halt => simp [hc] at hcy
    | ok c =>
      cases hrest : otpEChar otp pt (i + 1) with
      | error halt => simp [hc, hrest] at hcy
      | ok rest =>
        simp only [hc, hrest] at hcy
        obtain rfl := Except.ok.inj hcy
        replace hres : otpDChar otp' (_ :: _ :: (rest ++ [0])) i = .ok res := hres
        rw [otpDChar, if_neg (letter_ne_zero (by omega))] at hres
        split at hres
        · cases hres
        · split at hres
          · cases hres
          · rename_i res' hres'
            obtain rfl := Except.ok.inj hres
            simp [ih hrest hres']

/-- The text comes back from the letters of `otp_e`. -/
def RoundTrip (keyfile : Str → Option Keyfile) (junkE junkD : ℕ → UInt8) (room : ℕ → Bool)
    (kf : Str) (of : ℤ) (pt : Str) : Prop :=
  ∃ cy, otpE keyfile junkE kf of pt = .ok (0, cy) ∧ otpD keyfile junkD room kf of cy = .ok (0, pt)

/-- What the characters of the text and of the letters were turned into when the text came back. -/
theorem RoundTrip.chars {keyfile : Str → Option Keyfile} {kf pt : Str} {f : Keyfile} {of : ℤ}
    {junkE junkD : ℕ → UInt8} {room : ℕ → Bool} (hf : keyfile kf = some f)
    (h : RoundTrip keyfile junkE junkD room kf of pt) :
    ∃ cy, otpEChar (buffer junkE (f.read of pt.length).1) (cStr pt) 0 = .ok cy ∧
      otpDChar (buffer junkD (f.read of cy.length).1) (cy ++ [0]) 0 = .ok pt ∧
        room cy.length = true := by
  obtain ⟨cy, hcy, hres⟩ := h
  have hroom := room_of_otpD_eq_ok hf hres
  obtain ⟨heof, -⟩ := (otpE_eq_zero_iff hf junkE of pt).1 ⟨cy, hcy⟩
  unfold otpE at hcy
  unfold otpD at hres
  simp only [hf, heof, Bool.false_eq_true, if_false] at hcy
  simp only [hf, hroom, Bool.not_true, Bool.false_eq_true, if_false] at hres
  cases hcy' : otpEChar (buffer junkE (f.read of pt.length).1) (cStr pt) 0 with
  | error halt => simp [hcy'] at hcy
  | ok cy' =>
    simp only [hcy'] at hcy
    obtain ⟨-, rfl⟩ := Prod.mk.inj (Except.ok.inj hcy)
    cases hres' : otpDChar (buffer junkD (f.read of cy'.length).1) (cy' ++ [0]) 0 with
    | error halt => simp [hres'] at hres
    | ok res =>
      simp only [hres'] at hres
      obtain ⟨-, rfl⟩ := Prod.mk.inj (Except.ok.inj hres)
      exact ⟨cy', rfl, hres', hroom⟩

theorem lt_of_cStr {pt : Str} (hcstr : cStr pt = pt) (hbits : ∀ p ∈ cStr pt, p.toNat < 128) :
    ∀ p ∈ pt, 1 ≤ p.toNat ∧ p.toNat ≤ 127 := by
  intro p hp
  have hne : p ≠ 0 := by
    rintro rfl
    exact zero_not_mem_cStr pt (hcstr.symm ▸ hp)
  have hpos : p.toNat ≠ 0 := fun h => hne (UInt8.toNat_inj.1 h)
  have hlt := hbits p (hcstr.symm ▸ hp)
  omega

/-- Where the key file can be positioned, a text comes back if and only if it and its part of the
key have 7 bits, no character is NUL, the file is long enough, and the block of the letters has room
for a zero behind them. -/
theorem roundTrip_iff {keyfile : Str → Option Keyfile} {kf : Str} {f : Keyfile} {of : ℤ}
    (hf : keyfile kf = some f) (hread : f.Readable of) (junkE junkD : ℕ → UInt8)
    (room : ℕ → Bool) (pt : Str) :
    RoundTrip keyfile junkE junkD room kf of pt ↔
      (∀ p ∈ pt, 1 ≤ p.toNat ∧ p.toNat ≤ 127) ∧ f.Holds of pt.length ∧
        (∀ k ∈ (f.bytes.drop of.toNat).take pt.length, k.toNat < 128) ∧
          room (2 * pt.length) = true := by
  constructor
  · intro h
    obtain ⟨cy, hcy, hres, hroom⟩ := h.chars hf
    have hcstr : cStr pt = pt :=
      (List.takeWhile_prefix _).eq_of_length (length_otpDChar_otpEChar hcy hres).symm
    obtain ⟨heof, hbits⟩ := (otpE_eq_zero_iff hf junkE of pt).1 (h.imp fun _ hc => hc.1)
    have hpt := lt_of_cStr hcstr hbits
    have hholds := Keyfile.holds_of_read hread heof
    rw [hcstr] at hcy
    have hlen := length_otpEChar hcy
    have hsame : ∀ n < pt.length, buffer junkD (f.read of cy.length).1 (0 + n) =
        buffer junkE (f.read of pt.length).1 (0 + n) := by
      intro n hn
      rw [Nat.zero_add]
      exact Option.some.inj
        ((hholds.getElem? (by omega) hn junkD).symm.trans (hholds.getElem? le_rfl hn junkE))
    have hkey := key_of_otpDChar_otpEChar hpt hsame hcy hres
    refine ⟨hpt, hholds, fun k hk => ?_, hlen ▸ hroom⟩
    obtain ⟨n, hn⟩ := List.mem_iff_getElem?.1 hk
    obtain ⟨hlt, -⟩ := List.getElem?_eq_some_iff.1 hn
    have hn' : n < pt.length := lt_of_lt_of_le hlt (List.length_take_le _ _)
    rw [List.getElem?_take_of_lt hn', List.getElem?_drop, hholds.getElem? le_rfl hn' junkE] at hn
    obtain rfl := Option.some.inj hn
    have hb7 := hkey n hn'
    rwa [Nat.zero_add] at hb7
  · rintro ⟨hpt, hholds, hkey, hroom⟩
    rcases hholds with hnil | ⟨-, hlen⟩
    · obtain rfl := List.length_eq_zero_iff.1 hnil
      refine ⟨[], ?_, ?_⟩
      · unfold otpE
        simp [hf, Keyfile.read_of_readable hread, cStr, otpEChar]
      · have hnil : otpDChar (buffer junkD (f.read of 0).1) ([] ++ [0]) 0 = .ok [] := rfl
        rw [otpD_eq hf hnil]
        exact if_pos hroom
    · have hcovers : f.Covers of pt.length := ⟨hread.1, hread.2, hlen, hkey⟩
      obtain ⟨cy, hcy⟩ := exists_otpE hf hcovers hpt junkE
      exact ⟨cy, hcy, (otpD_of_otpE hf hf hcovers hpt hroom hcy).2⟩

/-- Under a key of zeros with one byte of 8 bits, which is behind the text. -/
theorem roundTrip_start :
    RoundTrip (fun _ => some { bytes := [0, 0, 0, 0, 0, 200] }) (fun _ => 7) (fun _ => 8) chunkRoom
      [] 0 (str "start") := by
  apply (roundTrip_iff (f := { bytes := [0, 0, 0, 0, 0, 200] }) rfl ⟨by decide, rfl⟩ _ _ _ _).2
  exact ⟨by decide, .inr ⟨⟨by decide, rfl⟩, by decide⟩, by decide, by decide⟩

/-! ## Letters of another text -/

/-- The letters of `q`, made of the letters of `p` without the key. -/
def reletter : Str → Str → Str → Str
  | p :: pt, q :: qt, c1 :: c2 :: cy =>
    binEInt ((binDInt c1 c2).toNat - p.toNat + q.toNat) ++ reletter pt qt cy
  | _, _, _ => []

/-- The letters of a text of 7 bits under a key of 7 bits are those of its sums. -/
theorem otpEChar_cons_eq_ok {otp : ℕ → UInt8} {p : UInt8} {pt cy : Str} {i : ℕ}
    (hp : p.toNat < 128) (hk : (otp i).toNat < 128) :
    otpEChar otp (p :: pt) i = .ok cy ↔
      ∃ rest, otpEChar otp pt (i + 1) = .ok rest ∧
        cy = binEInt (p.toNat + (otp i).toNat) ++ rest := by
  have hsum : lookup lAdd (charVal p) (charVal (otp i)) = .ok (p.toNat + (otp i).toNat) := by
    rw [charVal_of_lt hp, charVal_of_lt hk, lookup_eq (by omega) (by omega), lAdd,
      Nat.mod_eq_of_lt (by omega)]
  rw [otpEChar, hsum]
  cases otpEChar otp pt (i + 1) with
  | error halt => simp
  | ok rest => simp [eq_comm]

theorem otpEChar_reletter {otp : ℕ → UInt8} {p q cy : Str} {i : ℕ} (hp : ∀ c ∈ p, c.toNat < 128)
    (hq : ∀ c ∈ q, c.toNat < 128) (hlen : p.length = q.length)
    (hkey : ∀ n < p.length, (otp (i + n)).toNat < 128) (hcy : otpEChar otp p i = .ok cy) :
    otpEChar otp q i = .ok (reletter p q cy) := by
  induction p generalizing q i cy with
  | nil =>
    obtain rfl := List.length_eq_zero_iff.1 hlen.symm
    rfl
  | cons a p ih =>
    obtain ⟨b, q, rfl⟩ := List.exists_cons_of_length_eq_add_one hlen.symm
    obtain ⟨ha, hp⟩ := List.forall_mem_cons.1 hp
    obtain ⟨hb, hq⟩ := List.forall_mem_cons.1 hq
    have hk : (otp i).toNat < 128 := hkey 0 (Nat.succ_pos _)
    obtain ⟨rest, hrest, rfl⟩ := (otpEChar_cons_eq_ok ha hk).1 hcy
    have hplace : ∀ n, i + 1 + n = i + (n + 1) := fun n => by omega
    have hih := ih hp hq (Nat.succ.inj hlen)
      (fun n hn => hplace n ▸ hkey (n + 1) (Nat.succ_lt_succ hn)) hrest
    have hsum : (binDInt (UInt8.ofNat ((a.toNat + (otp i).toNat) / 16 % 16 + 64))
        (UInt8.ofNat ((a.toNat + (otp i).toNat) % 16 + 64))).toNat - a.toNat + b.toNat =
          b.toNat + (otp i).toNat := by
      rw [binDInt_binEInt (by omega)]
      omega
    refine (otpEChar_cons_eq_ok hb hk).2 ⟨_, hih, ?_⟩
    show binEInt _ ++ reletter p q rest = _
    rw [hsum]

/-- The letters of one text give those of another one under the same key. -/
theorem otpE_reletter {keyfile : Str → Option Keyfile} {junk : ℕ → UInt8} {kf p q cy : Str}
    {f : Keyfile} {of : ℤ} (hf : keyfile kf = some f) (hcovers : f.Covers of p.length)
    (hp : ∀ c ∈ p, 1 ≤ c.toNat ∧ c.toNat ≤ 127) (hq : ∀ c ∈ q, 1 ≤ c.toNat ∧ c.toNat ≤ 127)
    (hlen : p.length = q.length) (hcy : otpE keyfile junk kf of p = .ok (0, cy)) :
    otpE keyfile junk kf of q = .ok (0, reletter p q cy) := by
  rw [otpE_eq_ok_iff hf hcovers hp] at hcy
  rw [otpE_eq_ok_iff hf (hlen ▸ hcovers) hq, ← hlen]
  exact otpEChar_reletter (lt_of_text hp) (lt_of_text hq) hlen (hcovers.buffer_lt junk) hcy

/-- Who knows what was typed can send any other text of the same length: at whatever time the
letters made of the sent ones arrive, and whoever sends them, they have the effect of that text in
clear. -/
theorem forged_effect {x : Exchange} {kf pt q : Str} {f : Keyfile} {of : ℤ} {root : XMLNode}
    (hs : x.Shares kf f of) (hpt : x.encrypt kf of = .ok (0, pt))
    (hq : ∀ c ∈ q, 1 ≤ c.toNat ∧ c.toNat ≤ 127) (hlen : (command x.stdin).length = q.length)
    (hroot : x.server.parse (Session.envelope ⟨kf, of⟩ (reletter (command x.stdin) q pt)) =
      .ok root)
    (hr : root.Envelops ⟨kf, of⟩ (reletter (command x.stdin) q pt))
    (hname : ∀ y, x.server.parse q = .ok y → y.name ≠ str "otp")
    (cfg : Config) (peer : Str) (c : Session) :
    Session.SameEffect
      (Session.message cfg x.server peer
        (Session.envelope ⟨kf, of⟩ (reletter (command x.stdin) q pt)) c)
      (Session.message cfg.inClear x.server peer q c) := by
  have hletters := otpE_reletter hs.client hs.covers hs.text_mem hq hlen hpt
  exact Session.message_effect (Session.find_envelope _ _)
    (Host.decode_sealed hs.server hq (hlen ▸ hs.covers) (hlen ▸ hs.fits) (hlen ▸ hs.room) hs.client
      hletters hroot hr) hname c

/-- The call of a client that types `<info />`. -/
def infoCommand : Str := str "<info />"

def infoCall : Exchange :=
  { Exchange.quitCall with
    stdin := infoCommand ++ str "\n"
    stdin_ne_nil := by simp [infoCommand, str] }

/-- What arrives is made of the letters of `<info />`, and ends the schedulers. -/
theorem forged_effect_quit :
    (Session.message Exchange.quitCall.cfg infoCall.server Session.localhost
      (Session.envelope ⟨oneMeg, 0⟩ (reletter (command infoCall.stdin) Exchange.quitCommand
        (zeroLetters infoCommand))) (.accepted infoCall.process)).acts =
      [(.quit 0, Exchange.quitCommand)] := by
  have hshares : infoCall.Shares oneMeg { bytes := List.replicate 256 0 } 0 :=
    ⟨rfl, rfl, by decide, Exchange.covers_zeros (by decide) (by decide), by decide, by decide⟩
  have hletters : reletter (command infoCall.stdin) Exchange.quitCommand
      (zeroLetters infoCommand) = zeroLetters Exchange.quitCommand := by decide
  have hencrypt : infoCall.encrypt oneMeg 0 = .ok (0, zeroLetters infoCommand) := by rfl
  have heffect := forged_effect (q := Exchange.quitCommand) hshares hencrypt (by decide) (by decide)
    (by rw [hletters]; exact sealedHost_parse (by decide) _)
    (by rw [hletters]; exact sealedElement_envelops (by decide) (by decide) _)
    (fun y hy => by rw [Exchange.quitCall_name hy]; decide)
    Exchange.quitCall.cfg Session.localhost (.accepted infoCall.process)
  rw [heffect.2]
  rfl

/-! ## What the letters tell -/

/-- There is a key of 7 bits under which the text has these letters. -/
def Possible (pt cy : Str) : Prop :=
  ∃ (f : Keyfile) (of : ℤ) (junk : ℕ → UInt8), f.Covers of pt.length ∧
    otpE (fun _ => some f) junk [] of pt = .ok (0, cy)

theorem binEInt_inj {i j : ℕ} (hi : i < 256) (hj : j < 256) {r r' : Str}
    (h : binEInt i ++ r = binEInt j ++ r') : i = j ∧ r = r' := by
  obtain ⟨h1, h⟩ := List.cons.inj h
  obtain ⟨h2, h⟩ := List.cons.inj h
  refine ⟨?_, h⟩
  have hij := binDInt_binEInt hi
  rw [h1, h2, binDInt_binEInt hj] at hij
  exact_mod_cast hij.symm

/-- No character is greater than the sums that its letters stand for. -/
theorem le_of_letters {otp otp' : ℕ → UInt8} {p q cy : Str} {i : ℕ} (hlen : p.length = q.length)
    (hp : ∀ c ∈ p, c.toNat < 128) (hq : ∀ c ∈ q, c.toNat < 128)
    (hotp : ∀ n < p.length, otp (i + n) = 0) (hotp' : ∀ n < p.length, (otp' (i + n)).toNat < 128)
    (hcy : otpEChar otp p i = .ok cy) (hcy' : otpEChar otp' q i = .ok cy) :
    List.Forall₂ (fun a b => b.toNat ≤ a.toNat) p q := by
  induction p generalizing q i cy with
  | nil =>
    obtain rfl := List.length_eq_zero_iff.1 hlen.symm
    exact .nil
  | cons a p ih =>
    obtain ⟨b, q, rfl⟩ := List.exists_cons_of_length_eq_add_one hlen.symm
    obtain ⟨ha, hp⟩ := List.forall_mem_cons.1 hp
    obtain ⟨hb, hq⟩ := List.forall_mem_cons.1 hq
    have hplace : ∀ n, i + 1 + n = i + (n + 1) := fun n => by omega
    have hzero : otp i = 0 := hotp 0 (Nat.succ_pos _)
    have hk : (otp' i).toNat < 128 := hotp' 0 (Nat.succ_pos _)
    obtain ⟨rest, hrest, rfl⟩ := (otpEChar_cons_eq_ok ha (by rw [hzero]; decide)).1 hcy
    obtain ⟨rest', hrest', heq⟩ := (otpEChar_cons_eq_ok hb hk).1 hcy'
    rw [hzero] at heq
    obtain ⟨hsum, rfl⟩ := binEInt_inj (by simp; omega) (by omega) heq
    refine .cons (by simp at hsum; omega) (ih (Nat.succ.inj hlen) hp hq ?_ ?_ hrest hrest')
    · exact fun n hn => hplace n ▸ hotp (n + 1) (Nat.succ_lt_succ hn)
    · exact fun n hn => hplace n ▸ hotp' (n + 1) (Nat.succ_lt_succ hn)

/-- A text whose letters under a key of zeros are possible for another one is not less than it
anywhere. -/
theorem le_of_possible {p q : Str} (hp : ∀ c ∈ p, 1 ≤ c.toNat ∧ c.toNat ≤ 127)
    (hq : ∀ c ∈ q, 1 ≤ c.toNat ∧ c.toNat ≤ 127) (hlen : p.length = q.length)
    (h : ∀ cy, Possible p cy → Possible q cy) :
    List.Forall₂ (fun a b => b.toNat ≤ a.toNat) p q := by
  have hzeros : Keyfile.Covers { bytes := List.replicate p.length 0 } 0 p.length :=
    Exchange.covers_zeros le_rfl (by simp)
  obtain ⟨cy, hcy⟩ := @exists_otpE (fun _ => some _) [] _ _ _ rfl hzeros hp fun _ => 0
  obtain ⟨f, of, junk, hcovers, hcy'⟩ := h cy ⟨_, _, _, hzeros, hcy⟩
  rw [otpE_eq_ok_iff rfl hzeros hp] at hcy
  rw [otpE_eq_ok_iff rfl hcovers hq] at hcy'
  refine le_of_letters hlen (lt_of_text hp) (lt_of_text hq) (fun n hn => ?_) (fun n hn => ?_)
    hcy hcy'
  · rw [Nat.zero_add, hzeros.buffer_read le_rfl _ hn, List.getD_eq_getElem?_getD]
    simp [hn]
  · rw [hlen] at hn
    rw [Nat.zero_add, hcovers.buffer_read le_rfl _ hn]
    exact hcovers.key_lt hn

theorem eq_of_le_of_le {p q : Str} (h : List.Forall₂ (fun a b => b.toNat ≤ a.toNat) p q)
    (h' : List.Forall₂ (fun a b => b.toNat ≤ a.toNat) q p) : p = q := by
  induction h with
  | nil => rfl
  | cons hab _ ih =>
    cases h' with
    | cons hba h' => rw [ih h', UInt8.toNat_inj.1 (le_antisymm hba hab)]

/-- No two texts of one length have the same possible letters: the letters of one of them under some
key tell that it is not the other. -/
theorem possible_congr_iff {p q : Str} (hp : ∀ c ∈ p, 1 ≤ c.toNat ∧ c.toNat ≤ 127)
    (hq : ∀ c ∈ q, 1 ≤ c.toNat ∧ c.toNat ≤ 127) (hlen : p.length = q.length) :
    (∀ cy, Possible p cy ↔ Possible q cy) ↔ p = q := by
  constructor
  · intro h
    exact eq_of_le_of_le (le_of_possible hp hq hlen fun cy => (h cy).1)
      (le_of_possible hq hp hlen.symm fun cy => (h cy).2)
  · rintro rfl
    exact fun _ => Iff.rfl

/-- `<quit/>` and `<info/>` have letters that are not possible for both. -/
theorem possible_congr_iff_quit :
    ¬∀ cy, Possible (str "<quit/>") cy ↔ Possible (str "<info/>") cy := by
  rw [possible_congr_iff (by decide) (by decide) (by decide)]
  decide

end Peter
