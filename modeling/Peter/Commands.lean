import Peter.Otp
import Peter.System
import Peter.Xml

/-!
# Commands for a scheduler

The two members `command` of `Scheduler`, its `gui_command`, and the trees they answer with, as the
socket thread calls them while it serves a connection.  A `Session` is that connection: what was
sent on it and which commands it carried out, over the process whose schedulers they are for.
-/

namespace Peter

/-- `Program::xml_info`. -/
def Program.xmlInfo (utc : ℤ) (p : Program) : XMLNode :=
  let res : XMLNode := { name := str "program" }
  let res := res.addAttribute (str "name") p.name
  let res := res.addAttribute (str "pid") (toStr p.pid)
  let res := res.addAttribute (str "starts") (toStr p.starts)
  let res := res.addAttribute (str "age") (secsToStr (p.getRuntime utc))
  if p.pid = 0 then res.addAttribute (str "off") (secsToStr (p.getOfftime utc)) else res

def EventType.code : EventType → ℤ
  | .start => 0
  | .ended => 1
  | .stop => 2
  | .crash => 4
  | .limit => 8

/-- `Event::event_xml`, for an event of the program with that name. -/
def Event.eventXml (theDateTime : ℤ → Str) (program : Str) (e : Event) : XMLNode :=
  let res : XMLNode := { name := str "event" }
  let res := res.addAttribute (str "time") (theDateTime e.tStamp)
  let res := res.addAttribute (str "tstamp") (toStr (toInt e.tStamp))
  let res := res.addAttribute (str "type") (toStr e.eventType.code)
  let res := res.addAttribute (str "program") program
  res.addAttribute (str "status")
    (if e.status ≤ 0 then str "0/0" else statusToStr e.status.toNat)

/-- What the system answers while one connection is served. -/
structure Host where
  utc : ℤ := 0
  now : ℤ := 0
  theDateTime : ℤ → Str := fun _ => []
  /-- `XML_Parse`. -/
  xmlParse : Str → Option (List XmlCall) := fun _ => none
  /-- Does the parser still give its line number when it was freed over that text? -/
  freedLine : Str → Bool := fun _ => true
  keyfile : Str → Option Keyfile := fun _ => none
  /-- What the memory of the buffers of `otp_d` and of `otp_e` held before. -/
  junkD : ℕ → UInt8 := fun _ => 0
  junkE : ℕ → UInt8 := fun _ => 0
  /-- Is there a byte of the allocator behind the `n` bytes of the buffer of `otp_d`? -/
  roomD : ℕ → Bool := chunkRoom
  /-- Does `send` take the text of its `n`-th call? -/
  sendOk : ℕ → Bool := fun _ => true

/-! ## A connection -/

/-- A call on the socket of the client: `send` with its text and whether it took it, or `close`. -/
inductive Io
  | send (text : Str) (ok : Bool)
  | close
  deriving DecidableEq, Repr

/-- A command that was carried out, for scheduler `i`. -/
inductive Act
  | status
  | info (i : ℕ)
  | log (i : ℕ)
  | quit (i : ℕ)
  | start (i : ℕ) (name : Str)
  | stop (i : ℕ) (name : Str)
  deriving DecidableEq, Repr

/-- The name of the command in a message. -/
def Act.command : Act → Str
  | status => str "status"
  | info _ => str "info"
  | log _ => str "log"
  | quit _ => str "quit"
  | start _ _ => str "start"
  | stop _ _ => str "stop"

/-- `io` and `acts` are history: the calls on the socket, and what was carried out, each with the
text the command was parsed from.  `halt` is set when the socket thread does not go on. -/
structure Session where
  process : Process
  io : List Io := []
  acts : List (Act × Str) := []
  halt : Option Halt := none

namespace Session

def stop (c : Session) (h : Halt) : Session := { c with halt := some h }

def act (c : Session) (text : Str) (a : Act) : Session := { c with acts := c.acts ++ [(a, text)] }

/-- `close_client`. -/
def close (c : Session) : Session := { c with io := c.io ++ [.close] }

/-- `send`, and whether it took the text; on a closed socket it does not. -/
def send (c : Session) (h : Host) (text : Str) : Bool × Session :=
  let ok := h.sendOk c.io.length && .close ∉ c.io
  (ok, { c with io := c.io ++ [.send text ok] })

/-! ## `Scheduler::command` and `Scheduler::gui_command` -/

/-- `add_workunit( new WorkUnit( wType, now(), program ) )` for scheduler `i`. -/
def addWorkunit (c : Session) (h : Host) (i : ℕ) (wType : WType) (program : Option ProgPtr) :
    Session :=
  { c with process := c.process.addWorkunit i wType h.now program }

/-- One round of the loop of `command( sock_fd, "info" )`. -/
def sendInfo (h : Host) (text : Str) (i : ℕ) (p : ProgPtr) (c : Session) : Bool × Session :=
  let tmp := (((c.process.thread i).s.prog p).xmlInfo h.utc).toStr
  (c.act text (.info i)).send h tmp

/-- That loop over the programs, left when a `send` fails. -/
def sendInfos (h : Host) (text : Str) (i : ℕ) : List ProgPtr → Session → Session
  | [], c => c
  | p :: ps, c =>
    let (ok, c) := sendInfo h text i p c
    if ok then sendInfos h text i ps c else c

/-- `Scheduler::command( sock_fd, cmd )`, which sends its answer itself. -/
def commandFd (h : Host) (text : Str) (i : ℕ) (cmd : Str) (c : Session) : Session :=
  if cmd = str "info" then sendInfos h text i (c.process.thread i).s.programs c
  else if cmd = str "quit" then (c.act text (.quit i)).addWorkunit h i .exit none
  else c

/-- `Scheduler::command( cmd )`. -/
def command (h : Host) (text : Str) (i : ℕ) (cmd : Str) (c : Session) : XMLNode × Session :=
  let s := (c.process.thread i).s
  let res : XMLNode := { name := str "scheduler", attributes := [(str "name", s.name)] }
  if cmd = str "info" then
    (s.programs.foldl (fun res p => res.addChild ((s.prog p).xmlInfo h.utc)) res,
      c.act text (.info i))
  else if cmd = str "quit" then
    (res.setContents (str "quitting"), (c.act text (.quit i)).addWorkunit h i .exit none)
  else if cmd = str "log" then
    (s.elist.foldl (fun res e =>
      res.addChild (e.eventXml h.theDateTime (s.prog e.program).name)) res, c.act text (.log i))
  else (res, c)

/-- A unit for the program of that name in scheduler `i`, and the answer. -/
def addNamed (h : Host) (text : Str) (wType : WType) (name : Str) (a : Act) (i : ℕ) (c : Session) :
    XMLNode × Session :=
  match (c.process.thread i).s.getProgramByName name with
  | some p => ({ name := str "accepted" }, (c.act text a).addWorkunit h i wType (some p))
  | none => ({ name := str "error" }, c)

/-- A loop over the schedulers that adds a child to the result for each of them. -/
def forSchedulers (f : ℕ → Session → XMLNode × Session) (result : XMLNode) (c : Session) :
    XMLNode × Session :=
  (List.range c.process.count).foldl (fun rc i =>
    let (res, c) := f i rc.2
    (rc.1.addChild res, c)) (result, c)

/-- `Scheduler::gui_command( "ginfo", rv )`: the texts it appends to `rv`. -/
def guiCommand (h : Host) (i : ℕ) (c : Session) : List Str :=
  let s := (c.process.thread i).s
  s.programs.map fun p => (s.prog p).info h.utc

/-- The loop that sends the texts `gui_command` left: a failed `send` closes the client, and the
loop goes on. -/
def sendGui (h : Host) : List Str → Session → Session
  | [], c => c
  | r :: rv, c =>
    let (ok, c) := c.send h (r ++ str "\n")
    sendGui h rv (if ok then c else c.close)

end Session

end Peter
