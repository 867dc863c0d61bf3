import Mathlib.Data.List.Chain
import Peter.Xml

/-!
# The handlers on pointers

`XmlData` keeps the open elements as values.  Here the nodes are cells of a heap that point to their
children and to their parent, as in `expat_parser.cc`, where `end` climbs the parent pointers.
`handlers_build`: for the calls of a document the current node is the innermost open element
whenever text arrives, and at the end the heap holds the tree of the document.  `XmlData` ends with
the same tree (`xmlData_refines`).
-/

namespace Peter

/-- An `XMLNode` in memory.  A constructor does not set `parent`. -/
structure Cell where
  name : Str
  contents : Str := []
  nodeType : NodeType := .undef
  attributes : List (Str × Str) := []
  children : List ℕ := []
  parent : Option ℕ := none

namespace Cell

def addChild (c : Cell) (a : ℕ) : Cell := { c with children := c.children ++ [a], nodeType := .node }

def setContents (c : Cell) (s : Str) : Cell := { c with contents := s, nodeType := .leaf }

end Cell

/-- The nodes allocated so far and `XML_data`; a pointer is the number of allocations before. -/
structure Parser where
  heap : List Cell := []
  currentNode : Option ℕ := none
  level : ℤ := 0

namespace Parser

/-- A call to a handler; `none` where a pointer is used that is null or not set. -/
def handle (p : Parser) : XmlCall → Option Parser
  | .start el attr =>
    let thisNode : Cell := { name := el, nodeType := .leaf, attributes := attr }
    let heap := match p.currentNode with
      | some c => p.heap.modify c (·.addChild p.heap.length) ++ [{ thisNode with parent := some c }]
      | none => p.heap ++ [thisNode]
    some { heap, currentNode := some p.heap.length, level := p.level + 1 }
  | .stop =>
    if p.level > 1 then
      match p.currentNode.bind fun c => p.heap[c]?.bind Cell.parent with
      | some q => some { p with currentNode := some q, level := p.level - 1 }
      | none => none
    else some { p with level := p.level - 1 }
  | .contents s => match p.currentNode with
    | some c => some { p with heap := p.heap.modify c (·.setContents s) }
    | none => none

def handleAll (p : Parser) : List XmlCall → Option Parser
  | [] => some p
  | c :: cs => match p.handle c with
    | some p => p.handleAll cs
    | none => none

theorem handleAll_start (heap : List Cell) (c : ℕ) (level : ℤ) (el : Str)
    (attr : List (Str × Str)) (cs : List XmlCall) :
    handleAll ⟨heap, some c, level⟩ (.start el attr :: cs) =
      handleAll ⟨heap.modify c (·.addChild heap.length) ++
        [{ name := el, nodeType := .leaf, attributes := attr, parent := some c }],
        some heap.length, level + 1⟩ cs := rfl

theorem handleAll_contents (heap : List Cell) (c : ℕ) (level : ℤ) (s : Str) (cs : List XmlCall) :
    handleAll ⟨heap, some c, level⟩ (.contents s :: cs) =
      handleAll ⟨heap.modify c (·.setContents s), some c, level⟩ cs := rfl

theorem handleAll_stop {heap : List Cell} {c q : ℕ} {level : ℤ} (hlevel : 1 < level)
    (hq : heap[c]?.bind Cell.parent = some q) (cs : List XmlCall) :
    handleAll ⟨heap, some c, level⟩ (.stop :: cs) = handleAll ⟨heap, some q, level - 1⟩ cs := by
  rw [handleAll, handle]
  dsimp only
  rw [if_pos hlevel, Option.bind_some, hq]

end Parser

/-! ## Documents -/

/-- What stands between two tags: pieces of text and elements. -/
inductive Items
  | nil
  | text (s : Str) (rest : Items)
  | element (name : Str) (attributes : List (Str × Str)) (body rest : Items)

namespace Items

/-- The calls for the items, one by one. -/
def events : Items → List XmlCall
  | nil => []
  | text s rest => .contents s :: rest.events
  | element name attributes body rest =>
    .start name attributes :: (body.events ++ .stop :: rest.events)

/-- The contents that the last piece of text leaves. -/
def lastText (s : Str) : Items → Str
  | nil => s
  | text s rest => rest.lastText s
  | element _ _ _ rest => rest.lastText s

/-- The node type that the last item leaves. -/
def lastType (t : NodeType) : Items → NodeType
  | nil => t
  | text _ rest => rest.lastType .leaf
  | element _ _ _ rest => rest.lastType .node

/-- The elements as trees. -/
def nodes : Items → List XMLNode
  | nil => []
  | text _ rest => rest.nodes
  | element name attributes body rest =>
    { name, contents := body.lastText [], nodeType := body.lastType .leaf, attributes,
      children := body.nodes } :: rest.nodes

end Items

/-- Calls that end with the element that is open on `d` levels above the innermost one. -/
def Closing : ℕ → List XmlCall → Prop
  | _, [] => False
  | d, .start _ _ :: cs => Closing (d + 1) cs
  | d, .contents _ :: cs => Closing d cs
  | 0, .stop :: cs => cs = []
  | d + 1, .stop :: cs => Closing d cs

/-- The calls for a document: starts and ends are properly nested, there is one root, and no text
outside of it. -/
def IsDocument (cs : List XmlCall) : Prop :=
  ∃ name attributes rest, cs = .start name attributes :: rest ∧ Closing 0 rest

theorem closing_start {d : ℕ} {el : Str} {attr : List (Str × Str)} {cs : List XmlCall} :
    Closing d (.start el attr :: cs) ↔ Closing (d + 1) cs := by
  cases d <;> exact Iff.rfl

theorem closing_contents {d : ℕ} {s : Str} {cs : List XmlCall} :
    Closing d (.contents s :: cs) ↔ Closing d cs := by
  cases d <;> exact Iff.rfl

theorem closing_split (k : ℕ) : ∀ {cs : List XmlCall} {d : ℕ}, cs.length ≤ k → Closing d cs →
    ∃ body rest, cs = Items.events body ++ .stop :: rest ∧ Closing d (.stop :: rest) := by
  induction k with
  | zero =>
    intro cs d hk h
    rw [List.length_eq_zero_iff.1 (Nat.le_zero.1 hk)] at h
    exact h.elim
  | succ k ih =>
    intro cs d hk h
    rcases cs with _ | ⟨⟨el, attr⟩ | _ | s, cs⟩
    · exact h.elim
    · -- the element ends first, then what it stands in
      have hk : cs.length ≤ k := by simpa using hk
      obtain ⟨body, cs, rfl, hbody⟩ := ih hk (closing_start.1 h)
      have hk : cs.length ≤ k := by
        rw [List.length_append, List.length_cons] at hk
        omega
      obtain ⟨rest, cs, rfl, hrest⟩ := ih hk (d := d) hbody
      exact ⟨.element el attr body rest, cs, by simp [Items.events], hrest⟩
    · exact ⟨.nil, cs, rfl, h⟩
    · obtain ⟨rest, cs, rfl, hrest⟩ := ih (by simpa using hk) (closing_contents.1 h)
      exact ⟨.text s rest, cs, rfl, hrest⟩

/-- Properly nested calls are the calls for one element. -/
theorem IsDocument.events_eq {cs : List XmlCall} (h : IsDocument cs) :
    ∃ name attributes body, cs = (Items.element name attributes body .nil).events := by
  obtain ⟨name, attributes, rest, rfl, h⟩ := h
  obtain ⟨body, rest, rfl, hrest⟩ := closing_split _ le_rfl h
  obtain rfl : rest = [] := hrest
  exact ⟨name, attributes, body, rfl⟩

/-! ## The heap of a document -/

namespace Items

/-- The number of elements. -/
def count : Items → ℕ
  | nil => 0
  | text _ rest => rest.count
  | element _ _ body rest => body.count + 1 + rest.count

/-- The addresses of the outermost elements if the first one is at `n`. -/
def addrs (n : ℕ) : Items → List ℕ
  | nil => []
  | text _ rest => rest.addrs n
  | element _ _ body rest => n :: rest.addrs (n + 1 + body.count)

/-- What the items do to the cell of the element they stand in. -/
def fill (n : ℕ) (items : Items) (c : Cell) : Cell :=
  { c with contents := items.lastText c.contents, nodeType := items.lastType c.nodeType,
           children := c.children ++ items.addrs n }

/-- The cell of an element at `n`. -/
def cell (name : Str) (attributes : List (Str × Str)) (body : Items) (n : ℕ)
    (parent : Option ℕ) : Cell :=
  body.fill (n + 1) { name, nodeType := .leaf, attributes, parent }

/-- The cells of the elements, in document order from `n` on; `a` is the element they stand in. -/
def cells (a n : ℕ) : Items → List Cell
  | nil => []
  | text _ rest => rest.cells a n
  | element name attributes body rest =>
    cell name attributes body n (some a) :: (body.cells n (n + 1) ++
      rest.cells a (n + 1 + body.count))

@[simp] theorem length_cells (items : Items) (a n : ℕ) : (items.cells a n).length = items.count := by
  induction items generalizing a n with
  | nil => rfl
  | text s rest ih => exact ih a n
  | element name attributes body rest ihb ihr =>
    simp only [cells, List.length_cons, List.length_append, ihb, ihr, count]
    omega

theorem fill_element (n : ℕ) (name : Str) (attributes : List (Str × Str)) (body rest : Items)
    (c : Cell) : (element name attributes body rest).fill n c =
      rest.fill (n + 1 + body.count) (c.addChild n) := by
  simp [fill, Cell.addChild, lastText, lastType, addrs]

end Items

theorem modify_append_of_lt {α : Type*} {l : List α} {i : ℕ} (h : i < l.length) (f : α → α)
    (l' : List α) : (l ++ l').modify i f = l.modify i f ++ l' := by
  induction l generalizing i with
  | nil => exact absurd h (Nat.not_lt_zero i)
  | cons x l ih =>
    rcases i with _ | i
    · rfl
    · rw [List.cons_append, List.modify_succ_cons, List.modify_succ_cons, List.cons_append,
        ih (Nat.lt_of_succ_lt_succ h)]

theorem modify_length_append {α : Type*} (l : List α) (f : α → α) (x : α) (l' : List α) :
    (l ++ x :: l').modify l.length f = l ++ f x :: l' := by
  induction l with
  | nil => rfl
  | cons y l ih => rw [List.cons_append, List.length_cons, List.modify_succ_cons, ih,
      List.cons_append]

namespace Parser

/-- The handlers of some items, called with the element they stand in as the current node. -/
theorem handleAll_events (items : Items) (heap : List Cell) (a : ℕ) (level : ℤ)
    (cs : List XmlCall) (ha : a < heap.length) (hlevel : 1 ≤ level) :
    handleAll ⟨heap, some a, level⟩ (items.events ++ cs) =
      handleAll ⟨heap.modify a (items.fill heap.length) ++ items.cells a heap.length, some a,
        level⟩ cs := by
  induction items generalizing heap a level cs with
  | nil =>
    have hid : Items.nil.fill heap.length = id := by
      funext c
      simp [Items.fill, Items.lastText, Items.lastType, Items.addrs]
    rw [hid, List.modify_id, Items.cells, List.append_nil]
    rfl
  | text s rest ih =>
    have hset : (heap.modify a (·.setContents s)).length = heap.length := List.length_modify ..
    have hfill : (Items.text s rest).fill heap.length =
        rest.fill heap.length ∘ (·.setContents s) := rfl
    rw [Items.events, List.cons_append, handleAll_contents, ih _ a level cs (by omega) hlevel, hset,
      hfill, ← List.modify_modify_eq, Items.cells]
  | element name attributes body rest ihb ihr =>
    obtain ⟨n, hn⟩ : ∃ n, n = heap.length := ⟨_, rfl⟩
    obtain ⟨opened, hopened⟩ : ∃ opened, opened = heap.modify a (·.addChild n) := ⟨_, rfl⟩
    have hlen : opened.length = n := by rw [hopened, List.length_modify, hn]
    have hbody : ∀ c : Cell, (opened ++ [c]).modify n (body.fill (n + 1)) =
        opened ++ [body.fill (n + 1) c] := by
      intro c
      rw [← hlen]
      exact modify_length_append opened _ c []
    have hfill : (Items.element name attributes body rest).fill n =
        rest.fill (n + 1 + body.count) ∘ (·.addChild n) := by
      funext c
      exact Items.fill_element ..
    have hclosed : (opened ++ [Items.cell name attributes body n (some a)] ++
        body.cells n (n + 1)).length = n + 1 + body.count := by
      rw [List.length_append, List.length_append, List.length_singleton, Items.length_cells, hlen]
    have hparent : (opened ++ [Items.cell name attributes body n (some a)] ++
        body.cells n (n + 1))[n]?.bind Cell.parent = some a := by
      rw [List.append_assoc, List.getElem?_append_right (by omega), hlen, Nat.sub_self]
      rfl
    rw [Items.events, List.cons_append, List.append_assoc, List.cons_append, handleAll_start, ← hn,
      ← hopened, ihb _ n (level + 1) _ (by simp [hlen]) (by omega), List.length_append,
      List.length_singleton, hlen, hbody]
    change handleAll ⟨opened ++ [Items.cell name attributes body n (some a)] ++
      body.cells n (n + 1), some n, level + 1⟩ _ = _
    rw [handleAll_stop (by omega) hparent, Int.add_sub_cancel, ihr _ a level cs (by omega) hlevel,
      hclosed, List.append_assoc, modify_append_of_lt (by omega), hopened, List.modify_modify_eq,
      ← hfill, Items.cells]
    simp only [List.append_assoc, List.cons_append, List.nil_append]

/-- The handlers of a document. -/
theorem handleAll_document (name : Str) (attributes : List (Str × Str)) (body : Items) :
    handleAll {} (Items.element name attributes body .nil).events =
      some ⟨Items.cell name attributes body 0 none :: body.cells 0 1, some 0, 0⟩ := by
  have hbody := handleAll_events body [{ name, nodeType := .leaf, attributes }] 0 1 [.stop]
    Nat.zero_lt_one (by decide)
  exact hbody.trans rfl

end Parser

/-! ## Trees in the heap -/

mutual

/-- The heap has the tree at address `a`, and every node in it points to the one that holds it. -/
def Holds (heap : List Cell) : XMLNode → ℕ → Option ℕ → Prop
  | ⟨name, contents, nodeType, attributes, children⟩, a, parent =>
    ∃ as, heap[a]? = some { name, contents, nodeType, attributes, children := as, parent } ∧
      HoldsAll heap children as a

def HoldsAll (heap : List Cell) : List XMLNode → List ℕ → ℕ → Prop
  | [], as, _ => as = []
  | x :: xs, as, parent =>
    ∃ a rest, as = a :: rest ∧ Holds heap x a (some parent) ∧ HoldsAll heap xs rest parent

end

theorem getElem?_of_prefix {α : Type*} {l pre mid post : List α} (h : l = pre ++ mid ++ post)
    {i : ℕ} {x : α} (hx : mid[i]? = some x) : l[pre.length + i]? = some x := by
  subst h
  have hi : i < mid.length := (List.getElem?_eq_some_iff.1 hx).1
  rw [List.append_assoc, List.getElem?_append_right (by omega), Nat.add_sub_cancel_left,
    List.getElem?_append_left hi, hx]

/-- Cells laid out in document order hold the trees of the elements. -/
theorem holdsAll_nodes (items : Items) {heap p q : List Cell} {a : ℕ}
    (h : heap = p ++ items.cells a p.length ++ q) :
    HoldsAll heap items.nodes (items.addrs p.length) a := by
  induction items generalizing p q a with
  | nil => rfl
  | text s rest ih => exact ih h
  | element name attributes body rest ihb ihr =>
    refine ⟨p.length, _, rfl, ⟨body.addrs (p.length + 1), ?_, ?_⟩, ?_⟩
    · have hcell := getElem?_of_prefix h (i := 0) rfl
      simpa [Items.cell, Items.fill] using hcell
    · have hbody := ihb (p := p ++ [Items.cell name attributes body p.length (some a)])
        (q := rest.cells a (p.length + 1 + body.count) ++ q) (a := p.length)
        (by rw [h]; simp [Items.cells])
      simpa using hbody
    · have hrest := ihr (p := p ++ Items.cell name attributes body p.length (some a) ::
          body.cells p.length (p.length + 1)) (q := q) (a := a)
        (by rw [h]; simp [Items.cells, Nat.add_assoc, Nat.add_comm])
      simpa [Nat.add_assoc, Nat.add_comm] using hrest

/-! ## The innermost open element -/

/-- The elements begun so far, and which of them are open, innermost first. -/
structure Opened where
  path : List ℕ := []
  started : List (Str × List (Str × Str)) := []

def Opened.next (o : Opened) : XmlCall → Opened
  | .start el attr => ⟨o.started.length :: o.path, o.started ++ [(el, attr)]⟩
  | .stop => { o with path := o.path.tail }
  | .contents _ => o

/-- The elements open after some calls. -/
def opened (cs : List XmlCall) : Opened := cs.foldl Opened.next {}

/-- What `start` sets for good. -/
def Cell.tag (c : Cell) : Str × List (Str × Str) := (c.name, c.attributes)

namespace Parser

/-- The parser stands at the innermost open element, and the parents lead out of it. -/
structure At (p : Parser) (o : Opened) : Prop where
  current : p.currentNode = o.path.head?
  level : p.level = o.path.length
  tags : p.heap.map Cell.tag = o.started
  lt : ∀ a ∈ o.path, a < p.heap.length
  parents : o.path.IsChain fun a b => p.heap[a]?.bind Cell.parent = some b

theorem parent_modify {f : Cell → Cell} (hf : ∀ c, (f c).parent = c.parent) (heap : List Cell)
    (a b : ℕ) : (heap.modify a f)[b]?.bind Cell.parent = heap[b]?.bind Cell.parent := by
  rw [List.getElem?_modify]
  cases heap[b]? with
  | none => rfl
  | some c =>
    by_cases hab : a = b
    · simp [hab, hf]
    · simp [hab]

theorem map_tag_modify {f : Cell → Cell} (hf : ∀ c, (f c).tag = c.tag) (heap : List Cell) (a : ℕ) :
    (heap.modify a f).map Cell.tag = heap.map Cell.tag := by
  apply List.ext_getElem?
  intro b
  rw [List.getElem?_map, List.getElem?_map, List.getElem?_modify]
  cases heap[b]? with
  | none => rfl
  | some c =>
    by_cases hab : a = b
    · simp [hab, hf]
    · simp [hab]

theorem At.length_heap {p : Parser} {o : Opened} (h : At p o) : p.heap.length = o.started.length := by
  rw [← h.tags, List.length_map]

theorem At.start {p : Parser} {o : Opened} (h : At p o) (el : Str) (attr : List (Str × Str)) :
    ∃ p', p.handle (.start el attr) = some p' ∧ At p' (o.next (.start el attr)) := by
  have hlen := h.length_heap
  have hlevel := h.level
  rcases hpath : o.path with _ | ⟨c, path⟩
  · have hc : p.currentNode = none := by rw [h.current, hpath, List.head?_nil]
    rw [hpath] at hlevel
    rw [handle, hc]
    refine ⟨_, rfl, ⟨congrArg some hlen, ?_, ?_, ?_, ?_⟩⟩
    · simp [Opened.next, hpath, hlevel]
    · rw [List.map_append, h.tags]
      rfl
    · simp [Opened.next, hpath, hlen]
    · simp [Opened.next, hpath]
  · have hc : p.currentNode = some c := by rw [h.current, hpath, List.head?_cons]
    have hadd : (p.heap.modify c (·.addChild p.heap.length)).length = p.heap.length :=
      List.length_modify ..
    rw [handle, hc]
    refine ⟨_, rfl, ⟨congrArg some hlen, ?_, ?_, ?_, ?_⟩⟩
    · simp [Opened.next, hlevel]
    · rw [List.map_append, map_tag_modify (f := (·.addChild p.heap.length)) (fun _ => rfl), h.tags]
      rfl
    · intro a ha
      dsimp only
      rw [List.length_append, hadd, List.length_singleton]
      rcases List.mem_cons.1 ha with rfl | ha
      · exact hlen ▸ Nat.lt_succ_self _
      · exact (h.lt a ha).trans (Nat.lt_succ_self _)
    · -- the new cell points to `c`, the others point where they did
      have hold : ∀ a < p.heap.length, (p.heap.modify c (·.addChild p.heap.length) ++
          [{ name := el, nodeType := .leaf, attributes := attr, parent := some c }])[a]?.bind
            Cell.parent = p.heap[a]?.bind Cell.parent := by
        intro a ha
        rw [List.getElem?_append_left (by omega),
          parent_modify (f := (·.addChild p.heap.length)) (fun _ => rfl)]
      refine List.isChain_cons.2 ⟨?_, h.parents.imp_of_mem_imp fun a b ha _ hab => ?_⟩
      · intro b hb
        rw [hpath] at hb
        obtain rfl : c = b := by simpa using hb
        dsimp only
        rw [← hlen, List.getElem?_append_right (by omega), hadd, Nat.sub_self]
        rfl
      · exact (hold a (h.lt a ha)).trans hab

theorem At.stop {p : Parser} {o : Opened} (h : At p o) (ho : 2 ≤ o.path.length) :
    ∃ p', p.handle .stop = some p' ∧ At p' (o.next .stop) := by
  rcases hpath : o.path with _ | ⟨a, _ | ⟨b, path⟩⟩
  · rw [hpath] at ho
    exact absurd ho (by decide)
  · rw [hpath] at ho
    exact absurd ho (by decide : ¬2 ≤ 1)
  · have hlevel : p.level = o.path.length := h.level
    have hparents := h.parents
    rw [hpath] at hlevel hparents
    have ha : p.currentNode = some a := by rw [h.current, hpath, List.head?_cons]
    have hb : p.heap[a]?.bind Cell.parent = some b := hparents.rel
    rw [handle, if_pos (by rw [hlevel]; simp only [List.length_cons]; omega), ha, Option.bind_some,
      hb]
    refine ⟨_, rfl, ⟨?_, ?_, h.tags, ?_, h.parents.tail⟩⟩
    · simp [Opened.next, hpath]
    · simp only [Opened.next, hpath, List.tail_cons, hlevel, List.length_cons]
      omega
    · exact fun a ha => h.lt a (List.mem_of_mem_tail ha)

theorem At.contents {p : Parser} {o : Opened} (h : At p o) (ho : o.path ≠ []) (s : Str) :
    ∃ p', p.handle (.contents s) = some p' ∧ At p' (o.next (.contents s)) := by
  obtain ⟨a, path, hpath⟩ := List.exists_cons_of_ne_nil ho
  have ha : p.currentNode = some a := by rw [h.current, hpath, List.head?_cons]
  rw [handle, ha]
  refine ⟨_, rfl, ⟨h.current.symm ▸ ha.symm, h.level, ?_, ?_, ?_⟩⟩
  · exact (map_tag_modify (f := (·.setContents s)) (fun _ => rfl) p.heap a).trans h.tags
  · intro b hb
    exact (List.length_modify ..).symm ▸ h.lt b hb
  · refine h.parents.imp fun b c hbc => ?_
    exact (parent_modify (f := (·.setContents s)) (fun _ => rfl) p.heap a b).trans hbc

/-- Before every call but the last the parser stands at an open element. -/
theorem At.closing {p : Parser} {o : Opened} (h : At p o) {d : ℕ} (hd : o.path.length = d + 1)
    {cs post : List XmlCall} {c : XmlCall} (hcs : Closing d (cs ++ c :: post)) :
    ∃ p', p.handleAll cs = some p' ∧ At p' (cs.foldl Opened.next o) ∧
      (cs.foldl Opened.next o).path ≠ [] := by
  induction cs generalizing p o d with
  | nil => exact ⟨p, rfl, h, fun hnil => by rw [List.foldl_nil] at hnil; simp [hnil] at hd⟩
  | cons x cs ih =>
    rw [List.cons_append] at hcs
    rw [handleAll, List.foldl_cons]
    cases x with
    | start el attr =>
      obtain ⟨p', hp', h'⟩ := h.start el attr
      rw [hp']
      exact ih h' (by simp [Opened.next, hd]) (closing_start.1 hcs)
    | stop =>
      rcases d with _ | d
      · exact absurd (show cs ++ c :: post = [] from hcs) (by simp)
      · obtain ⟨p', hp', h'⟩ := h.stop (by omega)
        rw [hp']
        exact ih h' (by simp [Opened.next, hd]) hcs
    | contents s =>
      obtain ⟨p', hp', h'⟩ := h.contents (fun hnil => by simp [hnil] at hd) s
      rw [hp']
      exact ih h' hd (closing_contents.1 hcs)

/-- Inside a document the parser stands at the innermost open element. -/
theorem at_opened {cs post : List XmlCall} {s : Str}
    (h : IsDocument (cs ++ .contents s :: post)) :
    ∃ p, handleAll {} cs = some p ∧ At p (opened cs) ∧ (opened cs).path ≠ [] := by
  obtain ⟨name, attributes, rest, hcs, hrest⟩ := h
  rcases cs with _ | ⟨c, cs⟩
  · cases hcs
  · obtain ⟨rfl, rfl⟩ := List.cons.inj hcs
    have hempty : At {} {} := ⟨rfl, rfl, rfl, by simp, List.isChain_nil⟩
    obtain ⟨p, hp, hat⟩ := hempty.start name attributes
    obtain ⟨p', hp', hat', hne⟩ := hat.closing (d := 0) rfl hrest
    refine ⟨p', ?_, hat', hne⟩
    rw [handleAll, hp]
    exact hp'

end Parser

/-- Text arrives at the innermost open element `a`, begun by the start number `a`. -/
def ArrivesInnermost (cs : List XmlCall) : Prop :=
  ∀ pre s post, cs = pre ++ .contents s :: post → ∃ p a, Parser.handleAll {} pre = some p ∧
    p.currentNode = some a ∧ (opened pre).path.head? = some a ∧
      p.heap[a]?.map Cell.tag = (opened pre).started[a]?

/-- At the end the root is the current node, and it holds the tree of the document. -/
def BuildsTree (cs : List XmlCall) : Prop :=
  ∃ name attributes body, cs = (Items.element name attributes body .nil).events ∧
    ∃ p x, Parser.handleAll {} cs = some p ∧ p.level = 0 ∧ p.currentNode = some 0 ∧
      (Items.element name attributes body .nil).nodes = [x] ∧ Holds p.heap x 0 none

theorem IsDocument.arrivesInnermost {cs : List XmlCall} (h : IsDocument cs) :
    ArrivesInnermost cs := by
  intro pre s post hcs
  rw [hcs] at h
  obtain ⟨p, hp, hat, hne⟩ := Parser.at_opened h
  obtain ⟨a, path, hpath⟩ := List.exists_cons_of_ne_nil hne
  have ha : (opened pre).path.head? = some a := by rw [hpath, List.head?_cons]
  refine ⟨p, a, hp, hat.current.trans ha, ha, ?_⟩
  rw [← hat.tags, List.getElem?_map]

theorem IsDocument.buildsTree {cs : List XmlCall} (h : IsDocument cs) : BuildsTree cs := by
  obtain ⟨name, attributes, body, rfl⟩ := h.events_eq
  refine ⟨name, attributes, body, rfl, _, _, Parser.handleAll_document name attributes body, rfl,
    rfl, rfl, body.addrs 1, ?_, ?_⟩
  · simp [Items.cell, Items.fill]
  · exact holdsAll_nodes body (p := [Items.cell name attributes body 0 none]) (q := [])
      (List.append_nil _).symm

/-- The handlers build the tree of a document. -/
theorem handlers_build {cs : List XmlCall} (h : IsDocument cs) :
    ArrivesInnermost cs ∧ BuildsTree cs :=
  ⟨h.arrivesInnermost, h.buildsTree⟩

/-- `<a>x<b/><c>y</c></a>`. -/
def sampleCalls : List XmlCall :=
  [.start (str "a") [], .contents (str "x"), .start (str "b") [], .stop, .start (str "c") [],
    .contents (str "y"), .stop, .stop]

theorem handlers_build_sample : ArrivesInnermost sampleCalls ∧ BuildsTree sampleCalls :=
  handlers_build ⟨str "a", [], _, rfl, rfl⟩

/-! ## The same tree as a value -/

namespace XmlData

theorem handleAll_events (items : Items) (x : XMLNode) (path : List XMLNode) (level : ℕ)
    (cs : List XmlCall) (hlevel : 1 ≤ level) :
    handleAll ⟨x :: path, level⟩ (items.events ++ cs) =
      handleAll ⟨{ x with contents := items.lastText x.contents,
                          nodeType := items.lastType x.nodeType,
                          children := x.children ++ items.nodes } :: path, level⟩ cs := by
  induction items generalizing x path level cs with
  | nil =>
    obtain ⟨_, _, _, _, _⟩ := x
    rw [Items.events, Items.lastText, Items.lastType, Items.nodes, List.append_nil, List.nil_append]
  | text s rest ih =>
    rw [Items.events, List.cons_append, handleAll, handle]
    exact ih (x.setContents s) path level cs hlevel
  | element name attributes body rest ihb ihr =>
    rw [Items.events, List.cons_append, List.append_assoc, List.cons_append, handleAll, handle]
    dsimp only
    rw [ihb _ _ (level + 1) _ (by omega), handleAll, handle]
    dsimp only
    rw [if_pos (by omega), Nat.add_sub_cancel, ihr _ path level cs hlevel]
    simp [Items.lastText, Items.lastType, Items.nodes]

/-- For a document `XmlData` ends with the tree that the heap holds. -/
theorem handleAll_document (name : Str) (attributes : List (Str × Str)) (body : Items) :
    ∃ x, (Items.element name attributes body .nil).nodes = [x] ∧
      handleAll {} (Items.element name attributes body .nil).events = some ⟨[x], 0⟩ := by
  have hbody := handleAll_events body { name, nodeType := .leaf, attributes } [] 1 [.stop] le_rfl
  exact ⟨_, rfl, hbody.trans rfl⟩

end XmlData

/-- Values and pointers agree: the tree of `XmlData` is the one in the heap. -/
theorem xmlData_refines {cs : List XmlCall} (h : IsDocument cs) :
    ∃ x p, XmlData.handleAll {} cs = some ⟨[x], 0⟩ ∧ Parser.handleAll {} cs = some p ∧
      p.currentNode = some 0 ∧ Holds p.heap x 0 none := by
  obtain ⟨name, attributes, body, rfl, p, x, hp, -, hcur, hx, hholds⟩ := h.buildsTree
  obtain ⟨y, hy, hd⟩ := XmlData.handleAll_document name attributes body
  obtain rfl : x = y := List.singleton_inj.1 (hx.symm.trans hy)
  exact ⟨x, p, hd, hp, hcur, hholds⟩

end Peter
