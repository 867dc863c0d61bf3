import Mathlib.Algebra.Group.Nat.Even
import Peter.Cipher

/-!
# Where the codec looks

`otp_e_char` and `otp_d_char` index their matrix with values of `char`, which is signed, and with
what `bin_d_int` makes of two characters; `otp_d_char` goes on by two characters at a time.  The
pairs of indices and the places read are written down along the text (`eLookups`, `dLookups`,
`dReads`), and the codec is given by them (`otpEChar_eq`, `otpDChar_eq`).  `exists_otpE_iff` and
`exists_otpD_iff` say when the two have a result at all, `codec_inside_iff` when all lookups are
inside.
-/

namespace Peter

/-- The index pairs of `otp_e_char`, with the key from place `i` on. -/
def eLookups (otp : ℕ → UInt8) : Str → ℕ → List (ℤ × ℤ)
  | [], _ => []
  | p :: pt, i => (charVal p, charVal (otp i)) :: eLookups otp pt (i + 1)

/-- The index pairs of `otp_d_char` as long as it is in the text. -/
def dLookups (otp : ℕ → UInt8) : Str → ℕ → List (ℤ × ℤ)
  | c1 :: c2 :: ct, j =>
    if c1 = 0 then [] else (binDInt c1 c2, charVal (otp j)) :: dLookups otp ct (j + 1)
  | _, _ => []

/-- The number of pairs of characters it decodes. -/
def pairCount : Str → ℕ
  | c1 :: _ :: ct => if c1 = 0 then 0 else pairCount ct + 1
  | _ => 0

/-- The places `otp_d_char` reads, for the text from place `i` on; the last one may be behind it. -/
def dReads : Str → ℕ → List ℕ
  | c1 :: _ :: ct, i => if c1 = 0 then [i] else i :: (i + 1) :: dReads ct (i + 2)
  | [c1], i => if c1 = 0 then [i] else [i, i + 1]
  | [], i => [i]

/-- Both indices are in the table. -/
def InTable (x : ℤ × ℤ) : Prop := (0 ≤ x.1 ∧ x.1 ≤ 255) ∧ 0 ≤ x.2 ∧ x.2 ≤ 255

instance : DecidablePred InTable := fun x =>
  inferInstanceAs (Decidable ((0 ≤ x.1 ∧ x.1 ≤ 255) ∧ 0 ≤ x.2 ∧ x.2 ≤ 255))

/-! ## The codec by its lookups -/

theorem otpEChar_eq (otp : ℕ → UInt8) (pt : Str) (i : ℕ) :
    otpEChar otp pt i =
      ((eLookups otp pt i).mapM fun x => lookup lAdd x.1 x.2).map (·.flatMap binEInt) := by
  induction pt generalizing i with
  | nil => rfl
  | cons p pt ih =>
    rw [otpEChar, ih, eLookups, List.mapM_cons]
    cases lookup lAdd (charVal p) (charVal (otp i)) with
    | error h => rfl
    | ok c =>
      cases (eLookups otp pt (i + 1)).mapM fun x => lookup lAdd x.1 x.2 with
      | error h => rfl
      | ok cs => rfl

theorem lookup_eq_error {f : ℕ → ℕ → ℕ} {i j : ℤ} {h : Halt} (hl : lookup f i j = .error h) :
    h = .undefined := by
  unfold lookup at hl
  dsimp only at hl
  split at hl
  · cases hl
  · cases hl
    rfl

theorem mapM_lookup_eq_error {f : ℕ → ℕ → ℕ} {xs : List (ℤ × ℤ)} {h : Halt}
    (hxs : xs.mapM (fun x => lookup f x.1 x.2) = .error h) : h = .undefined := by
  induction xs with
  | nil => cases hxs
  | cons x xs ih =>
    rw [List.mapM_cons] at hxs
    cases hx : lookup f x.1 x.2 with
    | error e =>
      rw [hx] at hxs
      cases hxs
      exact lookup_eq_error hx
    | ok c =>
      cases hrest : xs.mapM fun x => lookup f x.1 x.2 with
      | error e =>
        rw [hx, hrest] at hxs
        cases hxs
        exact ih hrest
      | ok cs =>
        rw [hx, hrest] at hxs
        cases hxs

/-- With all its reads in memory the text is its lookups; a read behind it is undefined. -/
theorem otpDChar_eq (otp : ℕ → UInt8) : ∀ (ct : Str) (i j : ℕ), otpDChar otp ct j =
    if ∀ n ∈ dReads ct i, n < i + ct.length then
      ((dLookups otp ct j).mapM fun x => lookup lSub x.1 x.2).map (·.map UInt8.ofNat)
    else .error .undefined
  | [], i, j => by simp [otpDChar, dReads]
  | [c1], i, j => by
    by_cases hc : c1 = 0
    · simp [otpDChar, dReads, dLookups, hc]
      rfl
    · simp [otpDChar, dReads, hc]
  | c1 :: c2 :: ct, i, j => by
    by_cases hc : c1 = 0
    · simp [otpDChar, dReads, dLookups, hc]
      rfl
    · have hreads : (∀ n ∈ dReads (c1 :: c2 :: ct) i, n < i + (c1 :: c2 :: ct).length) ↔
          ∀ n ∈ dReads ct (i + 2), n < i + 2 + ct.length := by
        rw [dReads, if_neg hc]
        simp only [List.forall_mem_cons, List.length_cons, Nat.add_assoc, Nat.add_comm 2]
        constructor
        · exact fun h => h.2.2
        · exact fun h => ⟨by omega, by omega, h⟩
      rw [otpDChar, if_neg hc, otpDChar_eq otp ct (i + 2) (j + 1), dLookups, if_neg hc,
        List.mapM_cons]
      simp only [hreads]
      by_cases hin : ∀ n ∈ dReads ct (i + 2), n < i + 2 + ct.length
      · rw [if_pos hin, if_pos hin]
        cases lookup lSub (binDInt c1 c2) (charVal (otp j)) with
        | error h => rfl
        | ok c =>
          cases (dLookups otp ct (j + 1)).mapM fun x => lookup lSub x.1 x.2 with
          | error h => rfl
          | ok cs => rfl
      · rw [if_neg hin, if_neg hin]
        cases hl : lookup lSub (binDInt c1 c2) (charVal (otp j)) with
        | error h => rw [lookup_eq_error hl]
        | ok c => rfl

theorem length_dLookups (otp : ℕ → UInt8) :
    ∀ (ct : Str) (j : ℕ), (dLookups otp ct j).length = pairCount ct
  | [], _ => rfl
  | [_], _ => rfl
  | c1 :: c2 :: ct, j => by
    rw [dLookups, pairCount]
    split
    · rfl
    · exact congrArg Nat.succ (length_dLookups otp ct (j + 1))

theorem two_mul_pairCount_le : ∀ ct : Str, 2 * pairCount ct ≤ ct.length
  | [] => le_rfl
  | [_] => Nat.zero_le 1
  | c1 :: c2 :: ct => by
    have ih := two_mul_pairCount_le ct
    rw [pairCount, List.length_cons, List.length_cons]
    split <;> omega

/-! ## Lookups in memory -/

/-- The place of a lookup is in the memory of the matrix. -/
def InMemory (x : ℤ × ℤ) : Prop := 0 ≤ 256 * x.1 + x.2 ∧ 256 * x.1 + x.2 < 65536

theorem exists_mapM_lookup (f : ℕ → ℕ → ℕ) {xs : List (ℤ × ℤ)} (h : ∀ x ∈ xs, InMemory x) :
    ∃ cs, xs.mapM (fun x => lookup f x.1 x.2) = .ok cs ∧ cs.length = xs.length := by
  induction xs with
  | nil => exact ⟨[], rfl, rfl⟩
  | cons x xs ih =>
    rw [List.forall_mem_cons] at h
    obtain ⟨cs, hcs, hlen⟩ := ih h.2
    obtain ⟨c, hc⟩ : ∃ c, lookup f x.1 x.2 = .ok c := ⟨_, if_pos h.1⟩
    refine ⟨c :: cs, ?_, congrArg Nat.succ hlen⟩
    rw [List.mapM_cons, hc, hcs]
    rfl

theorem inMemory_of_mapM_lookup (f : ℕ → ℕ → ℕ) {xs : List (ℤ × ℤ)} {cs : List ℕ}
    (h : xs.mapM (fun x => lookup f x.1 x.2) = .ok cs) : ∀ x ∈ xs, InMemory x := by
  induction xs generalizing cs with
  | nil => simp
  | cons x xs ih =>
    rw [List.mapM_cons] at h
    cases hx : lookup f x.1 x.2 with
    | error e =>
      rw [hx] at h
      cases h
    | ok c =>
      cases hxs : xs.mapM fun x => lookup f x.1 x.2 with
      | error e =>
        rw [hx, hxs] at h
        cases h
      | ok cs' =>
        rw [List.forall_mem_cons]
        refine ⟨?_, ih hxs⟩
        unfold lookup at hx
        dsimp only at hx
        split at hx
        · assumption
        · cases hx

/-! ## Where the codec has a result -/

/-- A byte of 7 bits other than NUL is looked up in memory, any other one below it. -/
theorem inMemory_charVal_iff {p : UInt8} (hp : p ≠ 0) (k : UInt8) :
    InMemory (charVal p, charVal k) ↔ p.toNat < 128 := by
  have hpos : p.toNat ≠ 0 := fun h => hp (UInt8.toNat_inj.mp h)
  have hlt := p.toNat_lt
  have hk := k.toNat_lt
  unfold InMemory charVal
  dsimp only
  split <;> split <;> omega

theorem eLookups_inMemory_iff (otp : ℕ → UInt8) {pt : Str} (h0 : 0 ∉ pt) (i : ℕ) :
    (∀ x ∈ eLookups otp pt i, InMemory x) ↔ ∀ p ∈ pt, p.toNat < 128 := by
  induction pt generalizing i with
  | nil => simp [eLookups]
  | cons p pt ih =>
    rw [List.mem_cons, not_or] at h0
    rw [eLookups, List.forall_mem_cons, List.forall_mem_cons, ih h0.2,
      inMemory_charVal_iff (Ne.symm h0.1)]

theorem exists_otpEChar_iff (otp : ℕ → UInt8) (pt : Str) (i : ℕ) :
    (∃ cy, otpEChar otp pt i = .ok cy) ↔ ∀ x ∈ eLookups otp pt i, InMemory x := by
  rw [otpEChar_eq]
  constructor
  · rintro ⟨cy, hcy⟩
    cases hm : (eLookups otp pt i).mapM fun x => lookup lAdd x.1 x.2 with
    | error e =>
      rw [hm] at hcy
      cases hcy
    | ok cs => exact inMemory_of_mapM_lookup lAdd hm
  · intro h
    obtain ⟨cs, hcs, -⟩ := exists_mapM_lookup lAdd h
    rw [hcs]
    exact ⟨_, rfl⟩

/-- `otp_e` returns 0 when it has not seen the end of the file and the text has 7 bits. -/
theorem otpE_eq_zero_iff {keyfile : Str → Option Keyfile} {kf : Str} {f : Keyfile}
    (hf : keyfile kf = some f) (junk : ℕ → UInt8) (of : ℤ) (pt : Str) :
    (∃ cy, otpE keyfile junk kf of pt = .ok (0, cy)) ↔
      (f.read of pt.length).2 = false ∧ ∀ p ∈ cStr pt, p.toNat < 128 := by
  rw [← eLookups_inMemory_iff (buffer junk (f.read of pt.length).1) (zero_not_mem_cStr pt) 0,
    ← exists_otpEChar_iff]
  unfold otpE
  rw [hf]
  dsimp only
  cases heof : (f.read of pt.length).2 with
  | true => simp
  | false =>
    simp only [Bool.false_eq_true, if_false, true_and]
    cases otpEChar (buffer junk (f.read of pt.length).1) (cStr pt) 0 with
    | error e => simp
    | ok cy => simp

theorem otpE_none {keyfile : Str → Option Keyfile} {kf : Str} (hf : keyfile kf = none)
    (junk : ℕ → UInt8) (of : ℤ) (pt : Str) : otpE keyfile junk kf of pt = .ok (1, []) := by
  unfold otpE
  rw [hf]

/-- `otp_e` has a result: there is no key file, or it ends too early, or the text has 7 bits. -/
def Encrypts (keyfile : Str → Option Keyfile) (kf : Str) (of : ℤ) (pt : Str) : Prop :=
  ∀ f, keyfile kf = some f → (f.read of pt.length).2 = true ∨ ∀ p ∈ cStr pt, p.toNat < 128

theorem exists_otpE_iff (keyfile : Str → Option Keyfile) (junk : ℕ → UInt8) (kf : Str) (of : ℤ)
    (pt : Str) : (∃ r, otpE keyfile junk kf of pt = .ok r) ↔ Encrypts keyfile kf of pt := by
  unfold Encrypts
  cases hf : keyfile kf with
  | none =>
    rw [otpE_none hf]
    simp
  | some f =>
    have hbits := eLookups_inMemory_iff (buffer junk (f.read of pt.length).1)
      (zero_not_mem_cStr pt) 0
    rw [← exists_otpEChar_iff] at hbits
    simp only [Option.some.injEq, forall_eq', ← hbits]
    unfold otpE
    rw [hf]
    dsimp only
    cases heof : (f.read of pt.length).2 with
    | true => simp
    | false =>
      simp only [Bool.false_eq_true, if_false, false_or]
      cases otpEChar (buffer junk (f.read of pt.length).1) (cStr pt) 0 with
      | error e => simp
      | ok cy => simp

/-- The text makes `otp_d_char` read behind it, or look up a place outside the memory of the
matrix. -/
def Undefined (otp : ℕ → UInt8) (cy : Str) : Prop :=
  (∃ n ∈ dReads (cy ++ [0]) 0, (cy ++ [0]).length ≤ n) ∨
    ∃ x ∈ dLookups otp (cy ++ [0]) 0, ¬InMemory x

theorem otpDChar_cases (otp : ℕ → UInt8) (cy : Str) :
    Undefined otp cy ∧ (∃ e, otpDChar otp (cy ++ [0]) 0 = .error e) ∨
      ¬Undefined otp cy ∧ ∃ pt, otpDChar otp (cy ++ [0]) 0 = .ok pt ∧
        pt.length = pairCount (cy ++ [0]) := by
  rw [otpDChar_eq otp (cy ++ [0]) 0 0]
  by_cases hreads : ∀ n ∈ dReads (cy ++ [0]) 0, n < 0 + (cy ++ [0]).length
  · rw [if_pos hreads]
    by_cases hmem : ∀ x ∈ dLookups otp (cy ++ [0]) 0, InMemory x
    · obtain ⟨cs, hcs, hlen⟩ := exists_mapM_lookup lSub hmem
      refine Or.inr ⟨?_, cs.map UInt8.ofNat, by rw [hcs]; rfl, ?_⟩
      · rintro (⟨n, hn, hle⟩ | ⟨x, hx, hnot⟩)
        · have := hreads n hn
          omega
        · exact hnot (hmem x hx)
      · rw [List.length_map, hlen, length_dLookups]
    · left
      constructor
      · right
        simpa using hmem
      · cases hm : (dLookups otp (cy ++ [0]) 0).mapM fun x => lookup lSub x.1 x.2 with
        | error e => exact ⟨e, rfl⟩
        | ok cs => exact absurd (inMemory_of_mapM_lookup lSub hm) hmem
  · rw [if_neg hreads]
    refine Or.inl ⟨Or.inl ?_, _, rfl⟩
    simpa using hreads

theorem otpD_none {keyfile : Str → Option Keyfile} {kf : Str} (hf : keyfile kf = none)
    (junk : ℕ → UInt8) (room : ℕ → Bool) (of : ℤ) (cy : Str) :
    otpD keyfile junk room kf of cy = .ok (1, []) := by
  unfold otpD
  rw [hf]

theorem pairCount_le (cy : Str) : pairCount (cy ++ [0]) ≤ cy.length := by
  have h := two_mul_pairCount_le (cy ++ [0])
  rw [List.length_append, List.length_singleton] at h
  omega

/-- `otp_d` has a result: there is no key file, or the zero behind its buffer is still in the block
and it reads and looks up nothing outside. -/
def Decrypts (keyfile : Str → Option Keyfile) (junk : ℕ → UInt8) (room : ℕ → Bool) (kf : Str)
    (of : ℤ) (cy : Str) : Prop :=
  ∀ f, keyfile kf = some f →
    room cy.length = true ∧ ¬Undefined (buffer junk (f.read of cy.length).1) cy

/-- With a key file there is a result just for a text that decrypts, and it has a byte for every
pair. -/
theorem otpD_cases {keyfile : Str → Option Keyfile} {kf : Str} {f : Keyfile}
    (hf : keyfile kf = some f) (junk : ℕ → UInt8) (room : ℕ → Bool) (of : ℤ) (cy : Str) :
    ¬Decrypts keyfile junk room kf of cy ∧ (∃ e, otpD keyfile junk room kf of cy = .error e) ∨
      Decrypts keyfile junk room kf of cy ∧ ∃ pt, otpD keyfile junk room kf of cy = .ok (0, pt) ∧
        pt.length = pairCount (cy ++ [0]) := by
  simp only [Decrypts, otpD, hf, Option.some.injEq, forall_eq']
  cases room cy.length with
  | false => exact Or.inl ⟨by simp, _, rfl⟩
  | true =>
    rcases otpDChar_cases (buffer junk (f.read of cy.length).1) cy with
      ⟨hund, e, he⟩ | ⟨hdef, pt, hpt, hlen⟩
    · exact Or.inl ⟨fun h => h.2 hund, e, by rw [he]; rfl⟩
    · exact Or.inr ⟨⟨rfl, hdef⟩, pt, by rw [hpt]; rfl, hlen⟩

theorem room_of_otpD_eq_ok {keyfile : Str → Option Keyfile} {junk : ℕ → UInt8} {room : ℕ → Bool}
    {kf : Str} {f : Keyfile} {of : ℤ} {cy : Str} {r : ℕ × Str} (hf : keyfile kf = some f)
    (h : otpD keyfile junk room kf of cy = .ok r) : room cy.length = true := by
  unfold otpD at h
  simp only [hf] at h
  cases hroom : room cy.length with
  | true => rfl
  | false => simp [hroom] at h

theorem exists_otpD_iff (keyfile : Str → Option Keyfile) (junk : ℕ → UInt8) (room : ℕ → Bool)
    (kf : Str) (of : ℤ) (cy : Str) :
    (∃ r, otpD keyfile junk room kf of cy = .ok r) ↔ Decrypts keyfile junk room kf of cy := by
  cases hf : keyfile kf with
  | none =>
    rw [otpD_none hf]
    exact iff_of_true ⟨_, rfl⟩ fun f hf' => by simp [hf] at hf'
  | some f =>
    rcases otpD_cases hf junk room of cy with ⟨hnot, e, he⟩ | ⟨hdef, pt, hpt, -⟩
    · rw [he]
      exact iff_of_false (by simp) hnot
    · rw [hpt]
      exact iff_of_true ⟨_, rfl⟩ hdef

/-! ## Which lookups are inside -/

theorem charVal_nonneg_iff (c : UInt8) : 0 ≤ charVal c ↔ c.toNat < 128 := by
  have hlt := c.toNat_lt
  unfold charVal
  split <;> omega

theorem charVal_le (c : UInt8) : charVal c ≤ 127 := by
  have hlt := c.toNat_lt
  unfold charVal
  split <;> omega

theorem inTable_charVal_iff (p k : UInt8) :
    InTable (charVal p, charVal k) ↔ p.toNat < 128 ∧ k.toNat < 128 := by
  have hp := charVal_nonneg_iff p
  have hk := charVal_nonneg_iff k
  have hp' := charVal_le p
  have hk' := charVal_le k
  simp only [InTable]
  omega

/-- The key bytes from place `i` on have 7 bits. -/
theorem eLookups_inside_iff (otp : ℕ → UInt8) (pt : Str) (i : ℕ) :
    (∀ x ∈ eLookups otp pt i, InTable x) ↔
      (∀ p ∈ pt, p.toNat < 128) ∧ ∀ n < pt.length, (otp (i + n)).toNat < 128 := by
  induction pt generalizing i with
  | nil => simp [eLookups]
  | cons p pt ih =>
    have hplace : ∀ n, i + 1 + n = i + (n + 1) := fun n => by omega
    rw [eLookups, List.forall_mem_cons, ih, List.forall_mem_cons, List.length_cons,
      Nat.forall_lt_succ_left, inTable_charVal_iff]
    simp only [Nat.add_zero, hplace]
    constructor
    · rintro ⟨⟨hp, hk⟩, hpt, hotp⟩
      exact ⟨⟨hp, hpt⟩, hk, hotp⟩
    · rintro ⟨⟨hp, hpt⟩, hk, hotp⟩
      exact ⟨⟨hp, hk⟩, hpt, hotp⟩

/-- The pairs of characters `otp_d_char` decodes to a byte, as signed values. -/
def IsPair (c1 c2 : UInt8) : Prop :=
  1088 ≤ 16 * charVal c1 + charVal c2 ∧ 16 * charVal c1 + charVal c2 ≤ 1343

theorem inTable_binDInt_iff (c1 c2 k : UInt8) :
    InTable (binDInt c1 c2, charVal k) ↔ IsPair c1 c2 ∧ k.toNat < 128 := by
  have hk := charVal_nonneg_iff k
  have hk' := charVal_le k
  simp only [InTable, IsPair, binDInt]
  omega

theorem mem_dReads_self (ct : Str) (i : ℕ) : i ∈ dReads ct i := by
  rcases ct with _ | ⟨c1, _ | ⟨c2, ct⟩⟩
  · simp [dReads]
  · by_cases hc : c1 = 0 <;> simp [dReads, hc]
  · by_cases hc : c1 = 0 <;> simp [dReads, hc]

/-- What all pairs of a text of even length have, its first pair has and those behind it. -/
theorem even_pairs_cons (P : UInt8 → UInt8 → ℕ → Prop) (c1 c2 : UInt8) (s : Str) :
    (Even (c1 :: c2 :: s).length ∧ ∀ n < (c1 :: c2 :: s).length / 2,
      P ((c1 :: c2 :: s).getD (2 * n) 0) ((c1 :: c2 :: s).getD (2 * n + 1) 0) n) ↔
    P c1 c2 0 ∧ Even s.length ∧ ∀ n < s.length / 2,
      P (s.getD (2 * n) 0) (s.getD (2 * n + 1) 0) (n + 1) := by
  have hlen : (c1 :: c2 :: s).length = s.length + 2 := rfl
  have hhalf : (s.length + 2) / 2 = s.length / 2 + 1 := by omega
  have heven : Even (s.length + 2) ↔ Even s.length := Nat.even_add.trans (iff_true_right even_two)
  rw [hlen, hhalf, heven, Nat.forall_lt_succ_left]
  exact and_left_comm

/-- The text of even length, in pairs, with key bytes of 7 bits from place `j` on. -/
theorem dLookups_inside_iff (otp : ℕ → UInt8) : ∀ (cy : Str) (i j : ℕ),
    ((∀ x ∈ dLookups otp (cy ++ [0]) j, InTable x) ∧
        ∀ n ∈ dReads (cy ++ [0]) i, n ≤ i + (cStr cy).length) ↔
      Even (cStr cy).length ∧ ∀ n < (cStr cy).length / 2,
        IsPair ((cStr cy).getD (2 * n) 0) ((cStr cy).getD (2 * n + 1) 0) ∧
          (otp (j + n)).toNat < 128
  | [], i, j => by simp [dLookups, dReads, cStr]
  | [c], i, j => by
    by_cases hc : c = 0
    · subst hc
      simp [dLookups, dReads, cStr_cons_zero]
    · rw [cStr_cons hc]
      apply iff_of_false
      · rintro ⟨-, hreads⟩
        have := hreads (i + 2) (by simp [dReads, hc])
        simp [cStr] at this
      · rintro ⟨heven, -⟩
        exact Nat.not_even_one heven
  | c1 :: c2 :: cy, i, j => by
    by_cases hc1 : c1 = 0
    · subst hc1
      simp [dLookups, dReads, cStr_cons_zero]
    · rw [cStr_cons hc1]
      by_cases hc2 : c2 = 0
      · subst hc2
        apply iff_of_false
        · -- the terminator is the second character of a pair
          rintro ⟨-, hreads⟩
          have hmem : i + 2 ∈ dReads (c1 :: 0 :: cy ++ [0]) i := by
            rw [List.cons_append, List.cons_append, dReads, if_neg hc1]
            exact List.mem_cons_of_mem _ (List.mem_cons_of_mem _ (mem_dReads_self _ _))
          have := hreads (i + 2) hmem
          simp [cStr_cons_zero] at this
        · rintro ⟨heven, -⟩
          exact Nat.not_even_one heven
      · have ih := dLookups_inside_iff otp cy (i + 2) (j + 1)
        have hplace : ∀ n, j + 1 + n = j + (n + 1) := fun n => by omega
        have hshift : i + ((cStr cy).length + 1 + 1) = i + 2 + (cStr cy).length := by omega
        simp only [hplace] at ih
        rw [cStr_cons hc2,
          even_pairs_cons (fun a b n => IsPair a b ∧ (otp (j + n)).toNat < 128), ← ih,
          List.cons_append, List.cons_append, dLookups, if_neg hc1, dReads, if_neg hc1,
          List.forall_mem_cons, List.forall_mem_cons, List.forall_mem_cons, inTable_binDInt_iff,
          List.length_cons, List.length_cons, hshift, Nat.add_zero]
        constructor
        · rintro ⟨⟨hpair, hlook⟩, -, -, hreads⟩
          exact ⟨hpair, hlook, hreads⟩
        · rintro ⟨hpair, hlook, hreads⟩
          exact ⟨⟨hpair, hlook⟩, by omega, by omega, hreads⟩

/-- For every plaintext, cyphertext and key the lookups of `otp_e_char` are in the table when the
plaintext and the key it uses have 7 bits, and those of `otp_d_char` are and it stops at the
terminator when the cyphertext has an even number of characters, each pair of them decodes to a byte
and the key it uses has 7 bits. -/
theorem codec_inside_iff (pt cy : Str) (otp : ℕ → UInt8) :
    ((∀ x ∈ eLookups otp (cStr pt) 0, InTable x) ↔
      (∀ p ∈ cStr pt, p.toNat < 128) ∧ ∀ n < (cStr pt).length, (otp n).toNat < 128) ∧
    (((∀ x ∈ dLookups otp (cy ++ [0]) 0, InTable x) ∧
        ∀ n ∈ dReads (cy ++ [0]) 0, n ≤ (cStr cy).length) ↔
      Even (cStr cy).length ∧ ∀ n < (cStr cy).length / 2,
        IsPair ((cStr cy).getD (2 * n) 0) ((cStr cy).getD (2 * n + 1) 0) ∧
          (otp n).toNat < 128) := by
  have he := eLookups_inside_iff otp (cStr pt) 0
  have hd := dLookups_inside_iff otp cy 0 0
  simp only [Nat.zero_add] at he hd
  exact ⟨he, hd⟩

/-- A letter with an accent is looked up at a negative place, and after a single character the text
is read on behind its terminator. -/
theorem codec_outside : (-61, 65) ∈ eLookups (fun _ => 65) [195, 169] 0 ∧
    ¬InTable (-61, 65) ∧ 2 ∈ dReads ([65] ++ [0]) 0 ∧ (cStr [65]).length = 1 := by
  decide

end Peter
