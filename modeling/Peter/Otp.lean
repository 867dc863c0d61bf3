import Peter.Program

/-!
# One-time pads

`otp.cc`: a byte is encrypted by adding a byte of the key file, looked up in a matrix, and printed
as two letters of four bits each.  `char` is signed, so a lookup may fall outside the matrix; as
long as it stays in its memory it reads a neighbouring row.  `otp_d` writes a zero behind the end of
its buffer: C++ promises no byte there, and it is `room` that says of which lengths the allocator
gives one.
-/

namespace Peter

/-- A key file: its bytes, and where the system can position and read it. -/
structure Keyfile where
  bytes : List UInt8
  canRead : ℤ → Bool := fun _ => true

/-- `seekg( of )` and `read( buffer, len )`: the bytes stored, and `eof()`.  No file has a negative
offset, and a stream that could not be positioned reads nothing. -/
def Keyfile.read (f : Keyfile) (of : ℤ) (len : ℕ) : List UInt8 × Bool :=
  if of < 0 ∨ !f.canRead of then ([], false)
  else
    let got := (f.bytes.drop of.toNat).take len
    (got, got.length < len)

/-- The buffer after a read: what was not stored is what the memory held before. -/
def buffer (junk : ℕ → UInt8) (got : List UInt8) (i : ℕ) : UInt8 := got.getD i (junk i)

/-- Does the block that glibc gives for `n` bytes have one more?  A chunk has a multiple of 16
bytes, 32 at least, and 8 of them are its header. -/
def chunkRoom (n : ℕ) : Bool := n < 24 ∨ n % 16 ≠ 8

def lAdd (i j : ℕ) : ℕ := (i + j) % 256

def lSub (i j : ℕ) : ℕ := if i < j then i + 256 - j else i - j

/-- `m[i][j]` for an `int m[256][256]` with the entries `f`. -/
def lookup (f : ℕ → ℕ → ℕ) (i j : ℤ) : Except Halt ℕ :=
  let at_ := 256 * i + j
  if 0 ≤ at_ ∧ at_ < 65536 then .ok (f (at_.toNat / 256) (at_.toNat % 256)) else .error .undefined

/-- `bin_e_int`: the two letters of a byte. -/
def binEInt (i : ℕ) : Str := [UInt8.ofNat (i / 16 % 16 + 64), UInt8.ofNat (i % 16 + 64)]

def binDInt (c1 c2 : UInt8) : ℤ := (charVal c1 - 64) * 16 + (charVal c2 - 64)

/-- `otp_e_char`, with the key from place `i` on. -/
def otpEChar (otp : ℕ → UInt8) : Str → ℕ → Except Halt Str
  | [], _ => .ok []
  | p :: pt, i => match lookup lAdd (charVal p) (charVal (otp i)) with
    | .error h => .error h
    | .ok c => match otpEChar otp pt (i + 1) with
      | .error h => .error h
      | .ok res => .ok (binEInt c ++ res)

/-- `otp_d_char` on the characters up to and with the terminator: after the last one of an odd
number it reads on behind the text. -/
def otpDChar (otp : ℕ → UInt8) : Str → ℕ → Except Halt Str
  | c1 :: c2 :: ct, j =>
    if c1 = 0 then .ok []
    else match lookup lSub (binDInt c1 c2) (charVal (otp j)) with
      | .error h => .error h
      | .ok c => match otpDChar otp ct (j + 1) with
        | .error h => .error h
        | .ok res => .ok (UInt8.ofNat c :: res)
  | [c1], _ => if c1 = 0 then .ok [] else .error .undefined
  | [], _ => .error .undefined

/-- `otp_e`: its result and the cyphertext. -/
def otpE (keyfile : Str → Option Keyfile) (junk : ℕ → UInt8) (kf : Str) (of : ℤ) (pt : Str) :
    Except Halt (ℕ × Str) :=
  match keyfile kf with
  | none => .ok (1, [])
  | some f =>
    let (got, eof) := f.read of pt.length
    if eof then .ok (2, [])
    else match otpEChar (buffer junk got) (cStr pt) 0 with
      | .error h => .error h
      | .ok cy => .ok (0, cy)

/-- `otp_d`: its result and the plaintext. -/
def otpD (keyfile : Str → Option Keyfile) (junk : ℕ → UInt8) (room : ℕ → Bool) (kf : Str) (of : ℤ)
    (cy : Str) : Except Halt (ℕ × Str) :=
  match keyfile kf with
  | none => .ok (1, [])
  | some f =>
    -- `buffer[len] = '\0'` for the `len` bytes of `buffer`
    if !room cy.length then .error .undefined
    else match otpDChar (buffer junk (f.read of cy.length).1) (cy ++ [0]) 0 with
      | .error h => .error h
      | .ok pt => .ok (0, pt)

/-- With a key of zeros the letters of a text are its bytes. -/
example :
    otpE (fun _ => some { bytes := [0, 0, 0, 0] }) (fun _ => 7) [] 0 (str "quit") =
      .ok (0, str "GAGEFIGD") ∧
    otpD (fun _ => some { bytes := [0, 0, 0, 0] }) (fun _ => 7) chunkRoom [] 0 (str "GAGEFIGD") =
      .ok (0, str "quit") := ⟨by rfl, by rfl⟩

end Peter
