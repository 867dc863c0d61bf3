import Peter.Util

/-!
# XML trees

`XMLNode` of `XMLNode.cc` and the handlers of `expat_parser.cc` that build one.  The parser itself
is not part of the program: a text it accepts is given by the calls it makes to the handlers.
-/

namespace Peter

/-- `XML_UNDEF` and so on. -/
inductive NodeType
  | undef
  | node
  | leaf
  | comment
  deriving DecidableEq, Repr

structure XMLNode where
  name : Str
  contents : Str := []
  nodeType : NodeType := .undef
  attributes : List (Str × Str) := []
  children : List XMLNode := []

namespace XMLNode

def addAttribute (x : XMLNode) (a v : Str) : XMLNode :=
  { x with attributes := x.attributes ++ [(a, v)] }

/-- `add_child`: the node becomes an `XML_NODE`. -/
def addChild (x c : XMLNode) : XMLNode :=
  { x with children := x.children ++ [c], nodeType := .node }

/-- `set_contents`: replaces the contents and makes the node an `XML_LEAF`. -/
def setContents (x : XMLNode) (c : Str) : XMLNode := { x with contents := c, nodeType := .leaf }

/-- `get_attribute` with a default. -/
def getAttribute (x : XMLNode) (a d : Str) : Str :=
  match x.attributes.find? fun av => av.1 = a with
  | some av => av.2
  | none => d

def ppAttributes (attributes : List (Str × Str)) : Str :=
  attributes.flatMap fun av => str " " ++ av.1 ++ str "=\"" ++ av.2 ++ str "\""

mutual

/-- `pp` with indentation, a line for every tag. -/
def pp (indent : Str) : XMLNode → Str
  | ⟨name, contents, nodeType, attributes, children⟩ =>
    if nodeType = .comment then str "<!--" ++ contents ++ str "-->\n"
    else
      let tag := indent ++ str "<" ++ name ++ ppAttributes attributes
      if nodeType = .leaf ∧ contents = [] then tag ++ str " />\n"
      else
        let body := if children.isEmpty then contents
          else str "\n" ++ ppAll (indent ++ str "  ") children ++ indent
        tag ++ str ">" ++ body ++ str "</" ++ name ++ str ">\n"

def ppAll (indent : Str) : List XMLNode → Str
  | [] => []
  | x :: xs => pp indent x ++ ppAll indent xs

end

/-- `to_string`. -/
def toStr (x : XMLNode) : Str := pp [] x

end XMLNode

/-! ## The handlers -/

/-- A call of the parser to one of the handlers `start`, `end` and `contents`. -/
inductive XmlCall
  | start (el : Str) (attr : List (Str × Str))
  | stop
  | contents (s : Str)
  deriving DecidableEq, Repr

/-- `XML_data`: `current_node` and its ancestors, innermost first, and `level`. -/
structure XmlData where
  path : List XMLNode := []
  level : ℕ := 0

namespace XmlData

/-- A call to a handler; `none` where `contents` would write through a null pointer. -/
def handle (d : XmlData) : XmlCall → Option XmlData
  | .start el attr =>
    let node : XMLNode := { name := el, nodeType := .leaf, attributes := attr }
    some { path := match d.path with
             | [] => [node]
             | x :: xs => node :: { x with nodeType := .node } :: xs
           level := d.level + 1 }
  | .stop =>
    some { path := match d.path with
             | x :: y :: xs =>
               if d.level > 1 then { y with children := y.children ++ [x] } :: xs else x :: y :: xs
             | path => path
           level := d.level - 1 }
  | .contents s => match d.path with
    | [] => none
    | x :: xs => some { d with path := x.setContents s :: xs }

def handleAll (d : XmlData) : List XmlCall → Option XmlData
  | [] => some d
  | c :: cs => match d.handle c with
    | some d => d.handleAll cs
    | none => none

end XmlData

/-- What `parse_string` does not return with. -/
inductive ParseFault
  /-- It throws `ParseError`. -/
  | parseError
  /-- A null pointer is used. -/
  | undefined
  deriving DecidableEq, Repr

/-- `parse_string`: `xmlParse` is `XML_Parse`, `none` for `XML_STATUS_ERROR`.  The line number of
the `ParseError` is asked from the freed parser, and `freedLine` says whether it gives one.  A null
result counts as used, since every caller does so. -/
def parseString (xmlParse : Str → Option (List XmlCall)) (freedLine : Str → Bool) (s : Str) :
    Except ParseFault XMLNode :=
  if s.length < 3 then .error .parseError
  else match xmlParse s with
    | none => .error (if freedLine s then .parseError else .undefined)
    | some calls => match (XmlData.handleAll {} calls).bind fun d => d.path.head? with
      | some x => .ok x
      | none => .error .undefined

/-! ## Trees the parser can announce -/

namespace XMLNode

mutual

/-- The calls for an element, with its character data in one piece before its children. -/
def calls : XMLNode → List XmlCall
  | ⟨name, contents, _, attributes, children⟩ =>
    .start name attributes :: (if contents.isEmpty then [] else [.contents contents]) ++
      callsAll children ++ [.stop]

def callsAll : List XMLNode → List XmlCall
  | [] => []
  | x :: xs => calls x ++ callsAll xs

end

end XMLNode

example : (XMLNode.addChild { name := str "peter" }
      { name := str "error", attributes := [(str "type", str "no access")] }).toStr =
    str "<peter>\n  <error type=\"no access\"></error>\n</peter>\n" := by decide

example : parseString (fun _ => some [.start (str "quit") [], .start (str "otp") [], .stop, .stop])
      (fun _ => false) (str "<quit><otp /></quit>") =
    .ok ⟨str "quit", [], .node, [], [⟨str "otp", [], .leaf, [], []⟩]⟩ := by rfl

end Peter
