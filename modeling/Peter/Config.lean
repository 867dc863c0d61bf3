import Peter.Program
import Peter.Xml

/-!
# Programs as they are configured

The part of `Config::read_config` that makes a `Program` from its element, with the members of
`XMLNode` it calls.  `readActions` keeps what it stored before an exception and adds the default
actions to it, as the `catch (...)` does.
-/

namespace Peter

/-! ## Looking into a tree -/

namespace XMLNode

/-- `get_attribute` without a default; `none` where it throws and `has_attribute` is false. -/
def attribute? (x : XMLNode) (a : Str) : Option Str :=
  (x.attributes.find? fun av => av.1 = a).map (·.2)

/-- `get_named_child`; `none` where it throws or returns its second argument. -/
def getNamedChild (x : XMLNode) (name : Str) : Option XMLNode :=
  x.children.find? fun c => c.name = name

mutual

/-- `find_contents` with a default, which also a child that does not have the name returns. -/
def findContents (name deflt : Str) : XMLNode → Str
  | ⟨_, _, _, _, children⟩ => match children.find? fun c => c.name = name with
    | some c => c.contents
    | none => findContentsIn name deflt children

/-- Its second loop. -/
def findContentsIn (name deflt : Str) : List XMLNode → Str
  | [] => deflt
  | x :: xs =>
    let res := findContents name deflt x
    if res ≠ [] then res else findContentsIn name deflt xs

end

end XMLNode

/-- `std::stoi`; `none` where it throws. -/
def stoi (s : Str) : Option ℤ :=
  (stol s).bind fun n => if -2147483648 ≤ n ∧ n ≤ 2147483647 then some n else none

/-! ## Tables -/

/-- A `std::map<int, ActionList*>`: `some none` is an entry that holds `NULL`. -/
abbrev Table := ℤ → Option (Option ActionList)

namespace Table

/-- `table[ n ] = al`. -/
def set (t : Table) (n : ℤ) (al : ActionList) : Table := Function.update t n (some (some al))

/-- `table[ n ]`, which makes a `NULL` entry where there is none. -/
def index (t : Table) (n : ℤ) : Option ActionList × Table := match t n with
  | some al => (al, t)
  | none => (none, Function.update t n (some none))

end Table

/-- `exit_actions` and `sgnl_actions`. -/
structure Tables where
  exit : Table := fun _ => none
  sgnl : Table := fun _ => none

namespace Tables

/-- `get_actions`, with the tables as its lookups leave them. -/
def getActions (t : Tables) (res sig : ℤ) : Option ActionList × Tables :=
  if sig > 0 then
    match t.sgnl.index sig with
    | (some al, sgnl) => (some al, { t with sgnl })
    | (none, sgnl) =>
      let (al, sgnl) := sgnl.index 0
      (al, { t with sgnl })
  else
    let (al, exit) := t.exit.index res
    (al, { t with exit })

/-- The tables after some calls of `get_actions`. -/
def afterLookups (t : Tables) : List (ℤ × ℤ) → Tables
  | [] => t
  | (res, sig) :: lookups => (t.getActions res sig).2.afterLookups lookups

end Tables

/-! ## Exit actions -/

/-- Why a reader does not return. -/
inductive ReadFault
  /-- It throws an exception. -/
  | thrown
  /-- The behaviour is undefined. -/
  | undefined
  deriving DecidableEq, Repr

def orThrow {α : Type*} : Option α → Except ReadFault α
  | some a => .ok a
  | none => .error .thrown

theorem bind_eq_ok {α β : Type} {x : Except ReadFault α} {f : α → Except ReadFault β} {b : β}
    (h : x >>= f = .ok b) : ∃ a, x = .ok a ∧ f a = .ok b := by
  cases x with
  | error e => cases h
  | ok a => exact ⟨a, rfl, h⟩

theorem orThrow_eq_ok {α : Type} {o : Option α} {a : α} (h : orThrow o = .ok a) : o = some a := by
  cases o with
  | none => cases h
  | some b =>
    cases h
    rfl

/-- One child of an exit element; the pointer of an unknown one is never set. -/
def readAction (x : XMLNode) : Except ReadFault Action :=
  let after := x.getAttribute (str "after") (str "0")
  let prog := x.getAttribute (str "name") []
  if x.name = str "start" then do
    let after ← orThrow (stol after)
    return { actionType := .exec, prog, after }
  else if x.name = str "stop" then do
    let after ← orThrow (stol after)
    return { actionType := .kill, prog, after }
  else if x.name = str "exit" then return { actionType := .exit }
  else .error .undefined

/-- `table[ n ] = al` for `n` values from `a` on. -/
def setRange (al : ActionList) (a : ℤ) : ℕ → Table → Table
  | 0, t => t
  | n + 1, t => setRange al (a + 1) n (t.set a al)

/-- The loop over the parts of a value list: the table it leaves, and the fault that ended it. -/
def setParts (al : ActionList) : List Str → Table → Table × Option ReadFault
  | [], t => (t, none)
  | tmp :: parts, t => match find tmp (str "-") 0 with
    | some _ =>
      let rangeParts := tokenize tmp [] (UInt8.ofNat 45)
      match rangeParts[0]?, rangeParts[1]? with
      | some a, some b => match stoi a, stoi b with
        | some a, some b =>
          -- the loop variable runs over the largest `int`
          if b = 2147483647 ∧ a ≤ b then (t, some .undefined)
          else setParts al parts (setRange al a (b + 1 - a).toNat t)
        | _, _ => (t, some .thrown)
      | _, _ => (t, some .undefined)
    | none => match stoi tmp with
      | some n => setParts al parts (t.set n al)
      | none => (t, some .thrown)

/-- One exit element. -/
def readExit (x : XMLNode) (t : Tables) : Tables × Option ReadFault :=
  match x.children.mapM readAction with
  | .error f => (t, some f)
  | .ok al => match x.attribute? (str "signal") with
    | some signals =>
      let (sgnl, f) := setParts al (tokenize signals [] (UInt8.ofNat 44)) t.sgnl
      ({ t with sgnl }, f)
    | none => match x.attribute? (str "result") with
      | some results =>
        let (exit, f) := setParts al (tokenize results [] (UInt8.ofNat 44)) t.exit
        ({ t with exit }, f)
      | none => ({ t with exit := t.exit.set 0 al }, none)

def readExits : List XMLNode → Tables → Tables × Option ReadFault
  | [], t => (t, none)
  | x :: xs, t => match readExit x t with
    | (t, none) => readExits xs t
    | (t, some f) => (t, some f)

/-- The list the `catch (...)` installs. -/
def defaultActions : ActionList := [{ actionType := .exec, prog := [], after := 0 }]

/-- The exit actions of a program: whatever is thrown, the default actions are added. -/
def readActions (prog : XMLNode) (t : Tables) : Except ReadFault Tables :=
  let (t, f) := match prog.getNamedChild (str "actions") with
    | some actions => readExits actions.children t
    | none => (t, some .thrown)
  match f with
  | none => .ok t
  | some .thrown =>
    .ok { exit := t.exit.set 0 defaultActions, sgnl := t.sgnl.set 0 defaultActions }
  | some .undefined => .error .undefined

/-! ## A program -/

/-- The `limit` element. -/
def readLimits : Option XMLNode → Except ReadFault Limits
  | none => .ok {}
  | some x => do
    let starts ← orThrow (stoi (x.getAttribute (str "restarts") (str "-1")))
    let minruntime ← orThrow (stoi (x.getAttribute (str "minruntime") (str "-1")))
    let maxruntime ← orThrow (stoi (x.getAttribute (str "maxruntime") (str "-1")))
    return { starts, minruntime, maxruntime }

/-- The attributes of the `redirect` element, or `/dev/null`. -/
def readRedirect (a : Str) : Option XMLNode → Str
  | none => str "/dev/null"
  | some x => x.getAttribute a (str "/dev/null")

/-- The commands, in order. -/
def readSeq (prog : XMLNode) : List Str :=
  (prog.children.filter fun c => c.name = str "cmd").map (·.contents)

/-- What `read_config` makes of a program element. -/
def readProgram (prog : XMLNode) : Except ReadFault Program := do
  let name ← orThrow (prog.attribute? (str "name"))
  let stopSig ← orThrow (stoi (prog.findContents (str "signal") (str "15")))
  let limits ← readLimits (prog.getNamedChild (str "limit"))
  let tables ← readActions prog {}
  return {
    name, stopSig, limits
    seq := readSeq prog
    home := prog.findContents (str "home") (str "./")
    stdoutfile := readRedirect (str "stdout") (prog.getNamedChild (str "redirect"))
    stderrfile := readRedirect (str "stderr") (prog.getNamedChild (str "redirect"))
    exitActions := fun n => (tables.exit n).join
    sgnlActions := fun n => (tables.sgnl n).join }

example : (readActions
    { name := str "program",
      children := [{ name := str "actions",
                     children := [{ name := str "exit", attributes := [(str "result", str "0,2-4")],
                                    children := [{ name := str "start" }] }] }] } {}).map
      (fun t => [0, 1, 2, 3, 4, 5].map fun n => ((t.getActions n 0).1).map List.length) =
    .ok [some 1, none, some 1, some 1, some 1, none] := by rfl

end Peter
