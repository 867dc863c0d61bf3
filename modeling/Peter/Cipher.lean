import Mathlib.Tactic.Linarith
import Peter.Otp

/-!
# Decryption undoes encryption

With bytes of 7 bits on both sides no lookup leaves the matrix, and the letters of a sum give the
sum back (`binDInt_binEInt`).  `otpDChar_otpEChar` is the round trip for one key, by induction on
the plaintext; `otpE_covered` is the one for a key file, where `otp_d` asks for twice the bytes and
may get fewer.  `otp_d` also writes behind the block it asks for: `otpD_otpE_iff` says when that
does no harm.
-/

namespace Peter

theorem charVal_of_lt {c : UInt8} (h : c.toNat < 128) : charVal c = c.toNat := if_pos h

theorem lookup_eq {f : ℕ → ℕ → ℕ} {i j : ℕ} (hi : i < 256) (hj : j < 256) :
    lookup f i j = .ok (f i j) := by
  have hat : (256 * (i : ℤ) + j).toNat = 256 * i + j := by omega
  unfold lookup
  dsimp only
  rw [if_pos (by omega), hat, Nat.mul_add_div (by decide), Nat.div_eq_of_lt hj,
    Nat.mul_add_mod, Nat.mod_eq_of_lt hj, Nat.add_zero]

theorem lSub_lAdd {p k : ℕ} (hp : p < 128) (hk : k < 128) : lSub (lAdd p k) k = p := by
  unfold lAdd lSub
  rw [Nat.mod_eq_of_lt (by omega), if_neg (by omega), Nat.add_sub_cancel]

/-! ## Letters -/

/-- The letters of a cyphertext. -/
def IsLetter (c : UInt8) : Prop := 64 ≤ c.toNat ∧ c.toNat ≤ 79

theorem toNat_letter {n : ℕ} (h : n < 16) : (UInt8.ofNat (n + 64)).toNat = n + 64 :=
  UInt8.toNat_ofNat_of_lt' (by rw [UInt8.size]; omega)

theorem isLetter_of_mem_binEInt {i : ℕ} {c : UInt8} (h : c ∈ binEInt i) : IsLetter c := by
  unfold IsLetter
  simp only [binEInt, List.mem_cons, List.not_mem_nil, or_false] at h
  rcases h with rfl | rfl
  · rw [toNat_letter (by omega)]
    omega
  · rw [toNat_letter (by omega)]
    omega

theorem charVal_letter {n : ℕ} (h : n < 16) : charVal (UInt8.ofNat (n + 64)) = n + 64 := by
  rw [charVal_of_lt (by rw [toNat_letter h]; omega), toNat_letter h]
  push_cast
  rfl

theorem binDInt_binEInt {i : ℕ} (h : i < 256) :
    binDInt (UInt8.ofNat (i / 16 % 16 + 64)) (UInt8.ofNat (i % 16 + 64)) = i := by
  unfold binDInt
  rw [charVal_letter (by omega), charVal_letter (by omega)]
  omega

theorem letter_ne_zero {n : ℕ} (h : n < 16) : UInt8.ofNat (n + 64) ≠ 0 := by
  intro h0
  have := toNat_letter h
  rw [h0] at this
  simp at this

/-- A letter is none of the characters that XML escapes. -/
theorem IsLetter.not_mem_markup {c : UInt8} (h : IsLetter c) : c ∉ str "<>&\"'" := by
  intro hmem
  obtain ⟨hlo, hhi⟩ := h
  have hall : ∀ d ∈ str "<>&\"'", d.toNat < 64 := by decide
  have := hall c hmem
  omega

/-! ## One text -/

/-- Encrypt and decrypt with a key whose bytes have 7 bits, from place `i` on. -/
theorem otpDChar_otpEChar {otp : ℕ → UInt8} {pt : Str} {i : ℕ}
    (hpt : ∀ p ∈ pt, p.toNat < 128) (hotp : ∀ n < pt.length, (otp (i + n)).toNat < 128) :
    ∃ cy, otpEChar otp pt i = .ok cy ∧ cy.length = 2 * pt.length ∧ (∀ c ∈ cy, IsLetter c) ∧
      ∀ otp' : ℕ → UInt8, (∀ n < pt.length, otp' (i + n) = otp (i + n)) →
        otpDChar otp' (cy ++ [0]) i = .ok pt := by
  induction pt generalizing i with
  | nil => exact ⟨[], rfl, rfl, by simp, fun _ _ => by simp [otpDChar]⟩
  | cons p pt ih =>
    obtain ⟨hp, hpt⟩ := List.forall_mem_cons.1 hpt
    have hk : (otp i).toNat < 128 := hotp 0 (Nat.succ_pos _)
    have hplace : ∀ n, i + 1 + n = i + (n + 1) := fun n => by omega
    obtain ⟨cy, hcy, hlen, hletters, hdec⟩ := ih (i := i + 1) hpt fun n hn => by
      rw [hplace]
      exact hotp (n + 1) (Nat.succ_lt_succ hn)
    have hsum : lAdd p.toNat (otp i).toNat < 256 := Nat.mod_lt _ (by decide)
    have henc : lookup lAdd (charVal p) (charVal (otp i)) =
        .ok (lAdd p.toNat (otp i).toNat) := by
      rw [charVal_of_lt hp, charVal_of_lt hk]
      exact lookup_eq (by omega) (by omega)
    refine ⟨binEInt (lAdd p.toNat (otp i).toNat) ++ cy, ?_, ?_, ?_, ?_⟩
    · simp only [otpEChar, henc, hcy]
    · rw [List.length_append, hlen, List.length_cons]
      show 2 + 2 * pt.length = 2 * (pt.length + 1)
      omega
    · intro c hc
      rcases List.mem_append.1 hc with hc | hc
      · exact isLetter_of_mem_binEInt hc
      · exact hletters c hc
    · intro otp' hsame
      have h0 : otp' i = otp i := hsame 0 (Nat.succ_pos _)
      have hrest : otpDChar otp' (cy ++ [0]) (i + 1) = .ok pt := by
        apply hdec
        intro n hn
        rw [hplace]
        exact hsame (n + 1) (Nat.succ_lt_succ hn)
      have hlook : lookup lSub (lAdd p.toNat (otp i).toNat) (charVal (otp' i)) =
          .ok p.toNat := by
        rw [h0, charVal_of_lt hk]
        exact (lookup_eq hsum (by omega)).trans (congrArg _ (lSub_lAdd hp hk))
      show otpDChar otp' (_ :: _ :: (cy ++ [0])) i = _
      rw [otpDChar, if_neg (letter_ne_zero (by omega)), binDInt_binEInt hsum]
      simp only [hlook, hrest, UInt8.ofNat_toNat]

/-! ## One key file -/

/-- The file has the `n` bytes from `of` on, each of 7 bits. -/
structure Keyfile.Covers (f : Keyfile) (of : ℤ) (n : ℕ) : Prop where
  nonneg : 0 ≤ of
  canRead : f.canRead of = true
  length_le : of.toNat + n ≤ f.bytes.length
  bytes : ∀ k ∈ (f.bytes.drop of.toNat).take n, k.toNat < 128

namespace Keyfile.Covers

variable {f : Keyfile} {of : ℤ} {n m : ℕ}

/-- A read of `m ≥ n` bytes stores the `n` ones, if perhaps not all `m`. -/
theorem read_eq (h : f.Covers of n) (m : ℕ) :
    f.read of m =
      ((f.bytes.drop of.toNat).take m, decide ((f.bytes.drop of.toNat).length < m)) := by
  unfold read
  rw [if_neg (by simpa [h.canRead] using h.nonneg)]
  dsimp only
  rw [List.length_take]
  congr 1
  simp

/-- The key byte at place `i`. -/
theorem buffer_read (h : f.Covers of n) (hm : n ≤ m) (junk : ℕ → UInt8) {i : ℕ} (hi : i < n) :
    buffer junk (f.read of m).1 i = (f.bytes.drop of.toNat).getD i 0 := by
  have hlen := h.length_le
  have hin : i < (f.bytes.drop of.toNat).length := by
    rw [List.length_drop]
    omega
  rw [h.read_eq m, buffer, List.getD_eq_getElem?_getD, List.getD_eq_getElem?_getD,
    List.getElem?_take_of_lt (by omega), List.getElem?_eq_getElem hin]
  rfl

theorem key_lt (h : f.Covers of n) {i : ℕ} (hi : i < n) :
    ((f.bytes.drop of.toNat).getD i 0).toNat < 128 := by
  have hlen := h.length_le
  have hin : i < (f.bytes.drop of.toNat).length := by
    rw [List.length_drop]
    omega
  rw [List.getD_eq_getElem?_getD, List.getElem?_eq_getElem hin]
  apply h.bytes
  apply List.mem_of_getElem? (i := i)
  rw [List.getElem?_take_of_lt hi, List.getElem?_eq_getElem hin]
  rfl

end Keyfile.Covers

/-- What `otp_e` makes of a text with a key that covers it, and what `otp_d` reads back for it. -/
theorem otpE_covered {keyfile : Str → Option Keyfile} {kf : Str} {f : Keyfile} {of : ℤ} {pt : Str}
    (hf : keyfile kf = some f) (hpt : ∀ p ∈ pt, 1 ≤ p.toNat ∧ p.toNat ≤ 127)
    (hkey : f.Covers of pt.length) (junkE junkD : ℕ → UInt8) :
    ∃ cy, otpE keyfile junkE kf of pt = .ok (0, cy) ∧ cy.length = 2 * pt.length ∧
      (∀ c ∈ cy, IsLetter c ∧ c ∉ str "<>&\"'") ∧
      otpDChar (buffer junkD (f.read of cy.length).1) (cy ++ [0]) 0 = .ok pt := by
  have hkeyE : ∀ n < pt.length, buffer junkE (f.read of pt.length).1 (0 + n) =
      (f.bytes.drop of.toNat).getD n 0 := by
    intro n hn
    rw [Nat.zero_add]
    exact hkey.buffer_read le_rfl junkE hn
  have hpt7 : ∀ p ∈ pt, p.toNat < 128 := by
    intro p hp
    have := hpt p hp
    omega
  have hkey7 : ∀ n < pt.length,
      (buffer junkE (f.read of pt.length).1 (0 + n)).toNat < 128 := by
    intro n hn
    rw [hkeyE n hn]
    exact hkey.key_lt hn
  obtain ⟨cy, hcy, hlen, hletters, hdec⟩ := otpDChar_otpEChar hpt7 hkey7
  refine ⟨cy, ?_, hlen, fun c hc => ⟨hletters c hc, (hletters c hc).not_mem_markup⟩, ?_⟩
  · have hcstr : cStr pt = pt := by
      apply cStr_eq_self
      intro h0
      have := (hpt 0 h0).1
      simp at this
    have heof : (f.read of pt.length).2 = false := by
      have := hkey.length_le
      rw [hkey.read_eq]
      simp only [List.length_drop, decide_eq_false_iff_not]
      omega
    unfold otpE
    simp only [hf, heof, hcstr, hcy, Bool.false_eq_true, if_false]
  · apply hdec
    intro n hn
    rw [hkeyE n hn, Nat.zero_add]
    exact hkey.buffer_read (by omega) junkD hn

/-- With a key file there, `otp_d` returns just where the byte behind its buffer is in the block. -/
theorem otpD_eq {keyfile : Str → Option Keyfile} {kf : Str} {f : Keyfile} {of : ℤ} {cy pt : Str}
    {junk : ℕ → UInt8} (hf : keyfile kf = some f)
    (hpt : otpDChar (buffer junk (f.read of cy.length).1) (cy ++ [0]) 0 = .ok pt)
    (room : ℕ → Bool) :
    otpD keyfile junk room kf of cy =
      if room cy.length then .ok (0, pt) else .error .undefined := by
  unfold otpD
  simp only [hf, hpt]
  cases room cy.length with
  | false => rfl
  | true => rfl

/-- Encrypt with a key file and decrypt with it: the result is the plaintext just where the block of
the `2 * n` bytes that `otp_d` asks for has one more for the zero behind them. -/
theorem otpD_otpE_iff {keyfile : Str → Option Keyfile} {kf : Str} {f : Keyfile} {of : ℤ} {pt : Str}
    (hf : keyfile kf = some f) (hpt : ∀ p ∈ pt, 1 ≤ p.toNat ∧ p.toNat ≤ 127)
    (hkey : f.Covers of pt.length) (junkE junkD : ℕ → UInt8) (room : ℕ → Bool) :
    (∃ cy, otpE keyfile junkE kf of pt = .ok (0, cy) ∧ cy.length = 2 * pt.length ∧
      (∀ c ∈ cy, IsLetter c ∧ c ∉ str "<>&\"'") ∧
      otpD keyfile junkD room kf of cy = .ok (0, pt)) ↔ room (2 * pt.length) = true := by
  obtain ⟨cy, hcy, hlen, hletters, hdec⟩ := otpE_covered hf hpt hkey junkE junkD
  have hd := otpD_eq hf hdec room
  rw [hlen] at hd
  constructor
  · rintro ⟨cy', hcy', -, -, hd'⟩
    obtain rfl : cy = cy' := by
      rw [hcy] at hcy'
      simpa using hcy'
    cases hroom : room (2 * pt.length) with
    | true => rfl
    | false =>
      rw [hd, hroom] at hd'
      exact absurd hd' (by simp)
  · intro hroom
    rw [hroom] at hd
    exact ⟨cy, hcy, hlen, hletters, hd⟩

/-- Five letters of text at the end of a key file of ten bytes, in blocks of glibc. -/
theorem otpD_otpE_start : ∃ cy,
    otpE (fun _ => some { bytes := str "ABCDEFGHIJ" }) (fun _ => 7) [] 5 (str "start") =
      .ok (0, cy) ∧ cy.length = 2 * (str "start").length ∧
      (∀ c ∈ cy, IsLetter c ∧ c ∉ str "<>&\"'") ∧
      otpD (fun _ => some { bytes := str "ABCDEFGHIJ" }) (fun _ => 7) chunkRoom [] 5 cy =
        .ok (0, str "start") :=
  (otpD_otpE_iff (f := { bytes := str "ABCDEFGHIJ" }) rfl (by decide)
    ⟨by decide, rfl, by decide, by decide⟩ _ _ chunkRoom).2 (by decide)

/-- The block that glibc gives for 24 letters has 24 bytes: the zero is written into the size of the
next one, and no cyphertext of this plaintext is decrypted. -/
theorem otpD_otpE_status :
    (otpE (fun _ => some { bytes := str "ABCDEFGHIJKL" }) (fun _ => 7) [] 0
        (str "<status   />") = .ok (0, str "GMKEKGJEKIKKKJFHFIFJGJHJ") ∧
      otpD (fun _ => some { bytes := str "ABCDEFGHIJKL" }) (fun _ => 7) chunkRoom [] 0
        (str "GMKEKGJEKIKKKJFHFIFJGJHJ") = .error .undefined) ∧
    ¬∃ cy,
      otpE (fun _ => some { bytes := str "ABCDEFGHIJKL" }) (fun _ => 7) [] 0
        (str "<status   />") = .ok (0, cy) ∧
      otpD (fun _ => some { bytes := str "ABCDEFGHIJKL" }) (fun _ => 7) chunkRoom [] 0 cy =
        .ok (0, str "<status   />") := by
  have hcy : otpE (fun _ => some { bytes := str "ABCDEFGHIJKL" }) (fun _ => 7) [] 0
      (str "<status   />") = .ok (0, str "GMKEKGJEKIKKKJFHFIFJGJHJ") := rfl
  have hpt : otpD (fun _ => some { bytes := str "ABCDEFGHIJKL" }) (fun _ => 7) chunkRoom [] 0
      (str "GMKEKGJEKIKKKJFHFIFJGJHJ") = .error .undefined := rfl
  refine ⟨⟨hcy, hpt⟩, ?_⟩
  rintro ⟨cy, hcy', hpt'⟩
  obtain rfl : str "GMKEKGJEKIKKKJFHFIFJGJHJ" = cy := by
    rw [hcy] at hcy'
    simpa using hcy'
  rw [hpt] at hpt'
  simp at hpt'

end Peter
