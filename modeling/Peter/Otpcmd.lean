import Peter.Access

/-!
# The client `otpcmd`

`main` of `otpcmd.cc`, from the position file on: it encrypts one line of its input at the position
stored next to its key file, sends it, and stores the position for the next one, once before the
answer is read and once after.  An `Exchange` is one such call with one connection of the server to
it, `Pad.exchange` what it leaves: the position file, and the places of the key file that `otp_e`
was used with on either side.
-/

namespace Peter

/-! ## Input -/

/-- `posfile_in >> of`: digits with a sign; a number that does not fit becomes the nearest `long`,
and what is no number becomes 0. -/
def extractLong (s : Str) : ℤ :=
  let n := match s.dropWhile fun c => c.toNat = 32 ∨ 9 ≤ c.toNat ∧ c.toNat ≤ 13 with
    | 45 :: s => -digits 0 s
    | 43 :: s => digits 0 s
    | s => digits 0 s
  max (-9223372036854775808) (min n 9223372036854775807)

/-- The position that a position file holds; it is 0 without one. -/
def readPos : Option Str → ℤ
  | none => 0
  | some s => extractLong s

/-- `posfile_out << of << std::endl`. -/
def posText (of : ℤ) : Str := toStr of ++ str "\n"

/-- What `fgets` stores of an input when it may store `n` characters. -/
def fgets : ℕ → Str → Str
  | n + 1, c :: cs => if c = 10 then [c] else c :: fgets n cs
  | _, _ => []

/-- The command in the input: the first line up to its last character, which should be the line
feed. -/
def command (stdin : Str) : Str :=
  let cy := cStr (fgets 1023 stdin)
  substr cy 0 (cy.length - 1)

/-! ## After the command is sent -/

/-- How the client ends, once `send` has returned. -/
inductive Ending
  /-- It is killed before it opens the position file. -/
  | sent
  /-- It is killed when the file is open, and empty, and nothing is written yet. -/
  | opened
  /-- It is killed, or `recv` fails, before the answer is complete. -/
  | waiting
  /-- It receives what the server sent; `killed` when the file is open again, and empty. -/
  | whole (killed : Bool)
  /-- It receives something else. -/
  | other (answer : Str) (killed : Bool)

/-- The position file after it was opened for the second time. -/
def storePos (killed : Bool) (of : ℤ) : Option Str := some (if killed then [] else posText of)

/-- From the answer to the end of `main`, when the position `of` is in the position file: what is
in it then. -/
def Host.finish (h : Host) (of : ℤ) (answer : Str) (killed : Bool) : Except Halt (Option Str) :=
  if answer = str "2" then .ok (some (posText of))
  else match h.parse answer with
    | .error .parseError => .ok (some (posText of))
    | .error .undefined => .error .undefined
    | .ok x =>
      if x.name = str "otp" then
        match stol (x.getAttribute (str "offset") (str "0")) with
        -- nothing catches what `stol` throws
        | none => .ok (some (posText of))
        | some of =>
          let keyfile := x.getAttribute (str "keyfile") (str "otp.txt")
          match otpD h.keyfile h.junkD h.roomD keyfile of x.contents with
          | .error halt => .error halt
          | .ok (res, _) =>
            .ok (storePos killed (if res > 0 then of else toLong (of + x.contents.length)))
      else .ok (storePos killed of)

/-- The position file at the end, when a command of `n` characters was sent with the position `of`
and the server sent `answer`. -/
def Host.afterSend (h : Host) (posfile : Option Str) (of : ℤ) (n : ℕ) (answer : Str) :
    Ending → Except Halt (Option Str)
  | .sent => .ok posfile
  | .opened => .ok (some [])
  | .waiting => .ok (some (posText (toLong (of + n))))
  | .whole killed => h.finish (toLong (of + n)) answer killed
  | .other answer killed => h.finish (toLong (of + n)) answer killed

/-! ## The server's part -/

/-- A text that `otp_e` encrypted: with which key, and the letters it became. -/
structure Cyphertext where
  key : OtpKey
  text : Str
  letters : Str

namespace Session

/-- What `message` encrypts. -/
def encrypted (cfg : Config) (h : Host) (peer cmd : Str) (c : Session) : Option Cyphertext :=
  if (find cmd (str "<otp ") 0).isNone && cfg.otpOnly then none
  else if !cfg.peerAllowed peer then none
  else match h.decode cmd with
    | .command (some k) text x =>
      if !cfg.cmdAllowed x.name then none
      else
        let tmp := (dispatch cfg h text x c).1.toStr
        match otpE h.keyfile h.junkE k.keyfile k.offset tmp with
        | .ok (0, pt) => some ⟨k, tmp, pt⟩
        | _ => none
    | _ => none

/-- What a client is sent after the `1` that told it to send its command.  `answer` gets all of it,
since there is no zero byte in it. -/
def answer (c : Session) : Str := bytes { c with io := c.io.tail }

end Session

/-! ## Exchanges -/

/-- One call of the client, and the connection it makes. -/
structure Exchange where
  client : Host
  server : Host
  cfg : Config
  peer : Str
  process : Process
  /-- The standard input of the client; `fgets` leaves `aux` as it is when there is none. -/
  stdin : Str
  stdin_ne_nil : stdin ≠ []
  ending : Ending

namespace Exchange

/-- The result of `otp_e` for the command. -/
def encrypt (x : Exchange) (kf : Str) (of : ℤ) : Except Halt (ℕ × Str) :=
  otpE x.client.keyfile x.client.junkE kf of (command x.stdin)

/-- The connection on which the server reads the command. -/
def served (x : Exchange) (msg : Str) : Session :=
  Session.message x.cfg x.server x.peer msg (Session.accepted x.process)

/-- The reply that the server encrypts. -/
def reply (x : Exchange) (msg : Str) : Option Cyphertext :=
  Session.encrypted x.cfg x.server x.peer msg (Session.accepted x.process)

end Exchange

/-- The position file of one key file, and all the places of the key file that were used. -/
structure Pad where
  posfile : Option Str := none
  uses : List (ℤ × ℤ) := []

/-- The places a reply takes of the key file `kf`. -/
def Cyphertext.uses (kf : Str) (e : Cyphertext) : List (ℤ × ℤ) :=
  if e.key.keyfile = kf then [(e.key.offset, e.key.offset + (cStr e.text).length)] else []

namespace Pad

/-- `of` when the client has read the position file. -/
def of (σ : Pad) : ℤ := readPos σ.posfile

/-- One exchange with the key file `kf`.  Without a key the client sends nothing. -/
def exchange (kf : Str) (x : Exchange) (σ : Pad) : Except Halt Pad :=
  match x.encrypt kf σ.of with
  | .error halt => .error halt
  | .ok (res, pt) =>
    if res > 0 then .ok σ
    else
      let n := (command x.stdin).length
      let msg := Session.envelope ⟨kf, σ.of⟩ pt
      match x.client.afterSend σ.posfile σ.of n (x.served msg).answer x.ending with
      | .error halt => .error halt
      | .ok posfile =>
        .ok { posfile
              uses := σ.uses ++
                (σ.of, σ.of + n) :: (x.reply msg).toList.flatMap (Cyphertext.uses kf) }

/-- All the exchanges with one key file. -/
def machine (kf : Str) : Transition.System Pad Exchange Halt := ⟨exchange kf⟩

end Pad

example : (readPos none, readPos (some []), readPos (some (posText (-12)))) = (0, 0, -12) := by
  decide

example : (command (str "<quit />\n<status />\n"), command (str "<quit />")) =
    (str "<quit />", str "<quit /") := by decide

end Peter
