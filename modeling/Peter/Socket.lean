import Peter.Commands

/-!
# The socket thread

One iteration of the loop of `socket_thread` in `Socket.cc`, from the moment a client is accepted:
`read_data` takes its identification, `read_more` its command, which may be encrypted, and the
answer goes back on the same connection.  What is written to the log file is left out.
-/

namespace Peter

/-- The fields of `Config` the socket thread reads. -/
structure Config where
  hAllow : List Str := []
  cAllow : List Str := []
  otpOnly : Bool := false
  pid : ℤ := 0
  tStart : ℤ := 0

namespace Config

/-- `Socket::peer_allowed`. -/
def peerAllowed (cfg : Config) (peer : Str) : Bool := peer ∈ cfg.hAllow

/-- `Socket::cmd_allowed`. -/
def cmdAllowed (cfg : Config) (cmd : Str) : Bool :=
  match cfg.cAllow with
  | [] => false
  | c :: cs => c = str "all" || cmd ∈ c :: cs

end Config

/-! ## `read_data` and `read_more` -/

/-- `buf_size`. -/
def bufSize : ℕ := 10240

/-- What one `recv` of at most `buf_size-2` bytes returns. -/
structure Chunk where
  bytes : Str
  ne_nil : bytes ≠ []
  length_le : bytes.length ≤ bufSize - 2

/-- What the peer sends, as `recv` returns it, and whether it then closes its end. -/
structure Input where
  chunks : List Chunk
  closed : Bool := false

/-- How a read ends. -/
inductive Received
  | text (s : Str) (rest : Input)
  /-- `recv` does not return any more. -/
  | waiting
  /-- An access to `buf` outside its `buf_size` bytes. -/
  | overrun

/-- The last place from `foo` down to 1 with a `>` or a line feed. -/
def scan (buf : Str) : ℕ → Option ℕ
  | 0 => none
  | foo + 1 =>
    if buf[foo + 1]? = some 62 ∨ buf[foo + 1]? = some 10 then some (foo + 1) else scan buf foo

/-- The bytes up to that place, with the `>` and without the line feed. -/
def upTo (buf : Str) (pos : ℕ) : Str :=
  if buf[pos]? = some 10 then buf.take pos else buf.take (pos + 1)

/-- The loop of `read_data` and `read_more`; `buf` is what was received so far. -/
def recvLoop (closed : Bool) : Str → List Chunk → Received
  | buf, [] =>
    if !closed then .waiting
    else if buf.length + 1 < bufSize then .text (cStr buf) ⟨[], closed⟩ else .overrun
  | buf, c :: cs =>
    let buf := buf ++ c.bytes
    if bufSize ≤ buf.length then .overrun
    else match scan buf buf.length with
      | some pos => .text (cStr (upTo buf pos)) ⟨cs, closed⟩
      | none => recvLoop closed buf cs

/-- `read_data` and `read_more` with `get_buffer`. -/
def Input.read (input : Input) : Received := recvLoop input.closed [] input.chunks

/-- A host whose parser knows the given documents. -/
def Host.knowing (documents : List (Str × XMLNode)) : Host where
  xmlParse s := (documents.lookup s).map XMLNode.calls

/-! ## Decoding -/

/-- The key of an encrypted exchange: the file, and the offset for the answer. -/
structure OtpKey where
  keyfile : Str
  offset : ℤ
  deriving DecidableEq, Repr

/-- What a message turns out to be. -/
inductive Decoded
  /-- A command, parsed from `text`; encrypted if there is a key. -/
  | command (key : Option OtpKey) (text : Str) (x : XMLNode)
  /-- `ParseError` was thrown. -/
  | parseError (otpMode : Bool)
  | halt (h : Halt)

/-- The element of a text, or what `parse_string` does instead. -/
def Host.parse (h : Host) (s : Str) : Except ParseFault XMLNode :=
  parseString h.xmlParse h.freedLine s

/-- An `<otp>` element: decrypt its contents and parse them.  The result of `otp_d` is ignored. -/
def Host.decrypt (h : Host) (x : XMLNode) : Decoded :=
  let keyfile := x.getAttribute (str "keyfile") (str "otp.txt")
  match stol (x.getAttribute (str "offset") (str "0")) with
  | none => .halt .terminated
  | some offset => match otpD h.keyfile h.junkD h.roomD keyfile offset x.contents with
    | .error halt => .halt halt
    | .ok (_, plaintext) => match h.parse plaintext with
      | .error .parseError => .parseError true
      | .error .undefined => .halt .undefined
      | .ok x' => .command (some ⟨keyfile, toLong (offset + x.contents.length)⟩) plaintext x'

/-- Parse a message, and decrypt it if its root says so. -/
def Host.decode (h : Host) (cmd : Str) : Decoded :=
  match h.parse cmd with
  | .error .parseError => .parseError false
  | .error .undefined => .halt .undefined
  | .ok x => if x.name = str "otp" then h.decrypt x else .command none cmd x

/-- The message carries the command `x`, parsed from `text`, and passes the checks of `otp_only` and
of the peer. -/
structure Config.Accepts (cfg : Config) (h : Host) (peer cmd : Str) (key : Option OtpKey)
    (text : Str) (x : XMLNode) : Prop where
  otp : cfg.otpOnly = true → (find cmd (str "<otp ") 0).isSome
  peer : cfg.peerAllowed peer = true
  decode : h.decode cmd = .command key text x

/-! ## The answer -/

/-- `<peter><error type="…" /></peter>`. -/
def errorResult (type : Str) : XMLNode :=
  let result : XMLNode := { name := str "peter" }
  result.addChild { name := str "error", attributes := [(str "type", type)] }

/-- `get_scheduler`. -/
def Process.getScheduler (σ : Process) (name : Str) : Option ℕ :=
  (List.range σ.count).find? fun i => (σ.thread i).s.name = name

/-- `x.get_attribute( "name", d )`. -/
def XMLNode.nameAttribute (x : XMLNode) (d : Str) : Str := x.getAttribute (str "name") d

namespace Session

/-- Carry out an allowed command: the result, and the session after it. -/
def dispatch (cfg : Config) (h : Host) (text : Str) (x : XMLNode) (c : Session) :
    XMLNode × Session :=
  let result : XMLNode := { name := str "peter" }
  if x.name = str "status" then
    let res : XMLNode := { name := str "running" }
    let res := res.addAttribute (str "pid") (toStr cfg.pid)
    (result.addChild (res.addAttribute (str "age") (secsToStr (h.now - cfg.tStart))),
      c.act text .status)
  else if x.name = str "scheduler" then
    match c.process.getScheduler (x.nameAttribute (str "default")) with
    | some i => (result, x.children.foldl (fun c child => commandFd h text i child.name c) c)
    | none => (result, c)
  else if x.name = str "info" then forSchedulers (fun i => command h text i (str "info")) result c
  else if x.name = str "quit" then forSchedulers (fun i => command h text i (str "quit")) result c
  else if x.name = str "start" then
    let name := x.nameAttribute []
    forSchedulers (fun i => addNamed h text .runProg name (.start i name) i) result c
  else if x.name = str "stop" then
    let name := x.nameAttribute []
    forSchedulers (fun i => addNamed h text .endProg name (.stop i name) i) result c
  else if x.name = str "log" then forSchedulers (fun i => command h text i (str "log")) result c
  else (errorResult (str "unknown command"), c)

/-- `<otp keyfile="…" offset="…">…</otp>`. -/
def envelope (key : OtpKey) (pt : Str) : Str :=
  str "<otp keyfile=\"" ++ key.keyfile ++ str "\" offset=\"" ++ toStr (toInt key.offset) ++
    str "\">" ++ pt ++ str "</otp>"

/-- Send the result, encrypted if the command was. -/
def reply (h : Host) (key : Option OtpKey) (tmp : Str) (c : Session) : Session :=
  match key with
  | none => (c.send h tmp).2.close
  | some k => match otpE h.keyfile h.junkE k.keyfile k.offset tmp with
    | .error halt => c.stop halt
    | .ok (res, pt) => (c.send h (if res > 0 then str "2" else envelope k pt)).2.close

/-- A command that was parsed, from the check whether it is allowed. -/
def execute (cfg : Config) (h : Host) (key : Option OtpKey) (text : Str) (x : XMLNode)
    (c : Session) : Session :=
  if !cfg.cmdAllowed x.name then
    (c.send h (errorResult (str "not allowed or unknown")).toStr).2.close
  else
    let (result, c) := dispatch cfg h text x c
    c.reply h key result.toStr

/-- The message that `read_more` left in the buffer. -/
def message (cfg : Config) (h : Host) (peer : Str) (cmd : Str) (c : Session) : Session :=
  if (find cmd (str "<otp ") 0).isNone && cfg.otpOnly then c.close
  else if !cfg.peerAllowed peer then (c.send h (errorResult (str "no access")).toStr).2.close
  else match h.decode cmd with
    | .command key text x => execute cfg h key text x c
    | .parseError otpMode =>
      if otpMode then c.close else (c.send h (errorResult (str "XML error")).toStr).2.close
    | .halt halt => c.stop halt

/-- A client that said `pcmd`. -/
def pcmd (cfg : Config) (h : Host) (peer : Str) (input : Input) (c : Session) : Session :=
  let (ok, c) := c.send h (str "1")
  if !ok then c.close
  else match input.read with
    | .text cmd _ => message cfg h peer cmd c
    | .waiting => c
    | .overrun => c.stop .undefined

/-- A client that said `pgui`. -/
def pgui (h : Host) (c : Session) : Session :=
  (sendGui h ((List.range c.process.count).flatMap fun i => guiCommand h i c) c).close

/-- A connection, from `accept` until the client is closed or the thread waits for it. -/
def serve (cfg : Config) (h : Host) (peer : Str) (input : Input) (c : Session) : Session :=
  match input.read with
  | .text id rest =>
    if id = str "pcmd" then pcmd cfg h peer rest c
    else if id = str "pgui" then pgui h c
    else c.close
  | .waiting => c
  | .overrun => c.stop .undefined

end Session

end Peter
