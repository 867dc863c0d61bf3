import Peter.Expat
import Peter.Printing

/-!
# Text in pieces

Character data may reach `contents` in several pieces, and each piece replaces the contents of the
node.  `chunks_iff`: two ways to split the text of a document give the same tree, with the whole
text in it, exactly when nothing precedes the last piece of an element without children, and the
last pieces of the other elements agree.
-/

namespace Peter

namespace Items

/-- The pieces of text that stand directly between the two tags. -/
def pieces : Items → List Str
  | nil => []
  | text s rest => s :: rest.pieces
  | element _ _ _ rest => rest.pieces

/-- What stands between the tags of each element, in document order. -/
def bodies : Items → List Items
  | nil => []
  | text _ rest => rest.bodies
  | element _ _ body rest => body :: (body.bodies ++ rest.bodies)

/-- The elements with the whole text of those without children. -/
def whole : Items → List XMLNode
  | nil => []
  | text _ rest => rest.whole
  | element name attributes body rest =>
    { name, contents := if body.nodes = [] then body.pieces.flatten else [], attributes,
      children := body.whole } :: rest.whole

/-- The text in one or more pieces. -/
def splitText (ps : List Str) (rest : Items) : Items := ps.foldr text rest

/-- The second document is the first one with each text in one or more pieces, in order. -/
inductive Splits : Items → Items → Prop
  | nil : Splits nil nil
  | text {s : Str} {rest rest' : Items} (ps : List Str) (hps : ps ≠ []) (hs : ps.flatten = s)
    (h : Splits rest rest') : Splits (text s rest) (splitText ps rest')
  | element {body body' rest rest' : Items} (name : Str) (attributes : List (Str × Str))
    (hbody : Splits body body') (h : Splits rest rest') :
    Splits (element name attributes body rest) (element name attributes body' rest')

/-- Between the tags of one element, in two splittings: without children all pieces but the last
are empty in both, with children the last pieces agree. -/
def Settled (b b' : Items) : Prop :=
  if b.nodes = [] then (∀ p ∈ b.pieces.dropLast, p = []) ∧ ∀ p ∈ b'.pieces.dropLast, p = []
  else b.pieces.getLastD [] = b'.pieces.getLastD []

@[simp] theorem nodes_splitText (ps : List Str) (rest : Items) :
    (splitText ps rest).nodes = rest.nodes := by
  induction ps with
  | nil => rfl
  | cons p ps ih => exact ih

@[simp] theorem bodies_splitText (ps : List Str) (rest : Items) :
    (splitText ps rest).bodies = rest.bodies := by
  induction ps with
  | nil => rfl
  | cons p ps ih => exact ih

@[simp] theorem pieces_splitText (ps : List Str) (rest : Items) :
    (splitText ps rest).pieces = ps ++ rest.pieces := by
  induction ps with
  | nil => rfl
  | cons p ps ih => exact congrArg (p :: ·) ih

theorem lastType_splitText (ps : List Str) (rest : Items) (t : NodeType) :
    (splitText ps rest).lastType t = rest.lastType (if ps = [] then t else .leaf) := by
  induction ps generalizing t with
  | nil => rfl
  | cons p ps ih =>
    rw [if_neg (List.cons_ne_nil p ps)]
    exact (ih .leaf).trans (by rw [ite_self])

/-- The contents are the last piece. -/
theorem lastText_eq (items : Items) (s : Str) : items.lastText s = items.pieces.getLastD s := by
  induction items generalizing s with
  | nil => rfl
  | text p rest ih =>
    rw [lastText, ih, pieces, List.getLastD_cons]
  | element name attributes body rest ihb ihr => exact ihr s

namespace Splits

theorem lastType_eq {doc d : Items} (h : Splits doc d) (t : NodeType) :
    d.lastType t = doc.lastType t := by
  induction h generalizing t with
  | nil => rfl
  | text ps hps hs h ih =>
    rw [lastType_splitText, if_neg hps, ih, lastType]
  | element name attributes hbody h ihb ih => exact ih .node

theorem flatten_pieces {doc d : Items} (h : Splits doc d) :
    d.pieces.flatten = doc.pieces.flatten := by
  induction h with
  | nil => rfl
  | text ps hps hs h ih =>
    rw [pieces_splitText, List.flatten_append, ih, pieces, List.flatten_cons, hs]
  | element name attributes hbody h ihb ih => exact ih

theorem nodes_eq_nil_iff {doc d : Items} (h : Splits doc d) : d.nodes = [] ↔ doc.nodes = [] := by
  induction h with
  | nil => rfl
  | text ps hps hs h ih => rw [nodes_splitText, ih, nodes]
  | element name attributes hbody h ihb ih => simp [nodes]

theorem length_bodies {doc d : Items} (h : Splits doc d) : d.bodies.length = doc.bodies.length := by
  induction h with
  | nil => rfl
  | text ps hps hs h ih => rw [bodies_splitText, ih, bodies]
  | element name attributes hbody h ihb ih => simp [bodies, ihb, ih]

end Splits

theorem getLastD_eq_flatten_iff (ps : List Str) :
    ps.getLastD [] = ps.flatten ↔ ∀ p ∈ ps.dropLast, p = [] := by
  rcases List.eq_nil_or_concat ps with rfl | ⟨init, last, rfl⟩
  · simp
  · rw [List.concat_eq_append, List.getLastD_concat, List.dropLast_concat, List.flatten_append,
      List.flatten_singleton, List.self_eq_append_left, List.flatten_eq_nil_iff]

/-- For one element: the contents agree, and they are the whole text if there are no children. -/
theorem settled_iff {doc b b' : Items} (h : Splits doc b) (h' : Splits doc b') :
    Settled b b' ↔ b.lastText [] = b'.lastText [] ∧
      (if b.nodes = [] then b.lastText [] else []) =
        if doc.nodes = [] then doc.pieces.flatten else [] := by
  have hiff := h.nodes_eq_nil_iff
  rw [lastText_eq, lastText_eq]
  unfold Settled
  by_cases hnil : b.nodes = []
  · rw [if_pos hnil, if_pos hnil, if_pos (hiff.1 hnil), ← getLastD_eq_flatten_iff,
      ← getLastD_eq_flatten_iff, h.flatten_pieces, h'.flatten_pieces]
    constructor
    · rintro ⟨hb, hb'⟩
      exact ⟨hb.trans hb'.symm, hb⟩
    · rintro ⟨hbb, hb⟩
      exact ⟨hb, hbb.symm.trans hb⟩
  · rw [if_neg hnil, if_neg hnil, if_neg (mt hiff.2 hnil)]
    exact (and_iff_left rfl).symm

theorem agree_iff {doc d d' : Items} (h : Splits doc d) (h' : Splits doc d') :
    d.nodes = d'.nodes ∧ XMLNode.dataAll d.nodes = doc.whole ↔
      ∀ q ∈ d.bodies.zip d'.bodies, Settled q.1 q.2 := by
  induction h generalizing d' with
  | nil =>
    cases h'
    simp [nodes, whole, bodies, XMLNode.dataAll]
  | text ps hps hs h ih =>
    cases h' with
    | text ps' hps' hs' h' =>
      rw [nodes_splitText, nodes_splitText, bodies_splitText, bodies_splitText]
      exact ih h'
  | @element docBody body docRest rest name attributes hbody h ihb ih =>
    cases h' with
    | @element _ body' _ rest' _ _ hbody' h' =>
      have htype : body.lastType .leaf = body'.lastType .leaf := by
        rw [hbody.lastType_eq, hbody'.lastType_eq]
      have hlen : body.bodies.length = body'.bodies.length := by
        rw [hbody.length_bodies, hbody'.length_bodies]
      simp only [bodies, List.zip_cons_cons, List.forall_mem_cons, List.zip_append hlen,
        List.forall_mem_append, ← ihb hbody', ← ih h', settled_iff hbody hbody']
      simp only [nodes, whole, XMLNode.dataAll, XMLNode.data, List.cons.injEq, XMLNode.mk.injEq,
        htype, true_and, List.isEmpty_iff]
      constructor
      · rintro ⟨⟨⟨hlast, hnodes⟩, hrest⟩, ⟨htext, hchildren⟩, hwhole⟩
        exact ⟨⟨hlast, htext⟩, ⟨hnodes, hchildren⟩, hrest, hwhole⟩
      · rintro ⟨⟨hlast, htext⟩, ⟨hnodes, hchildren⟩, hrest, hwhole⟩
        exact ⟨⟨⟨hlast, hnodes⟩, hrest⟩, ⟨htext, hchildren⟩, hwhole⟩

end Items

/-- Two splittings of a document give the same tree, with its whole text in it, exactly when they
are settled in every element. -/
theorem chunks_iff {doc d d' : Items} {name : Str} {attributes : List (Str × Str)}
    (h : Items.Splits (.element name attributes doc .nil) d)
    (h' : Items.Splits (.element name attributes doc .nil) d') :
    (∃ x, XmlData.handleAll {} d.events = some ⟨[x], 0⟩ ∧
      XmlData.handleAll {} d'.events = some ⟨[x], 0⟩ ∧
      [x.data] = (Items.element name attributes doc .nil).whole) ↔
    ∀ q ∈ d.bodies.zip d'.bodies, Items.Settled q.1 q.2 := by
  rw [← Items.agree_iff h h']
  cases h with
  | @element _ body _ _ _ _ hbody hnil =>
    cases h' with
    | @element _ body' _ _ _ _ hbody' hnil' =>
      cases hnil
      cases hnil'
      obtain ⟨x, hx, hd⟩ := XmlData.handleAll_document name attributes body
      obtain ⟨x', hx', hd'⟩ := XmlData.handleAll_document name attributes body'
      rw [hd, hd', hx, hx']
      constructor
      · rintro ⟨y, hy, hy', hwhole⟩
        cases hy
        cases hy'
        exact ⟨rfl, hwhole⟩
      · rintro ⟨heq, hwhole⟩
        obtain rfl := List.singleton_inj.1 heq
        exact ⟨x, rfl, rfl, hwhole⟩

/-- `<seq>` with a `<cmd>` on a line of its own; the indentation may come in two pieces. -/
def seqOf (indent : List Str) : Items :=
  .element (str "seq") []
    (Items.splitText indent
      (.element (str "cmd") [] (.text (str "date") .nil) (.text (str "\n") .nil))) .nil

theorem splits_seqOf {indent : List Str} (h : indent ≠ []) (hindent : indent.flatten = str "\n  ") :
    Items.Splits (seqOf [str "\n  "]) (seqOf indent) :=
  .element (str "seq") [] (.text indent h hindent
    (.element (str "cmd") [] (.text [str "date"] (by decide) rfl .nil)
      (.text [str "\n"] (by decide) rfl .nil))) .nil

theorem chunks_iff_seqOf : ∃ x,
    XmlData.handleAll {} (seqOf [str "\n", str "  "]).events = some ⟨[x], 0⟩ ∧
    XmlData.handleAll {} (seqOf [str "\n  "]).events = some ⟨[x], 0⟩ ∧
    [x.data] = (seqOf [str "\n  "]).whole := by
  refine (chunks_iff (splits_seqOf (by decide) rfl) (splits_seqOf (by decide) rfl)).2 ?_
  simp [seqOf, Items.splitText, Items.bodies, Items.Settled, Items.nodes, Items.pieces]

/-- `<cmd>date &amp; uptime</cmd>` with the reference in a piece of its own. -/
def brokenCmd : Items :=
  .element (str "cmd") [] (Items.splitText [str "date ", str "&", str " uptime"] .nil) .nil

/-- The same text in one piece. -/
def wholeCmd : Items := .element (str "cmd") [] (.text (str "date & uptime") .nil) .nil

theorem splits_brokenCmd : Items.Splits wholeCmd brokenCmd :=
  .element (str "cmd") [] (.text [str "date ", str "&", str " uptime"] (by decide) (by decide) .nil)
    .nil

theorem splits_wholeCmd : Items.Splits wholeCmd wholeCmd :=
  .element (str "cmd") [] (.text [str "date & uptime"] (by decide) (by decide) .nil) .nil

theorem chunks_fail : ¬∀ (doc d d' : Items) (name : Str) (attributes : List (Str × Str)),
    Items.Splits (.element name attributes doc .nil) d →
    Items.Splits (.element name attributes doc .nil) d' →
    ∃ x, XmlData.handleAll {} d.events = some ⟨[x], 0⟩ ∧
      XmlData.handleAll {} d'.events = some ⟨[x], 0⟩ ∧
      [x.data] = (Items.element name attributes doc .nil).whole := by
  intro h
  obtain ⟨x, hbroken, hwhole, -⟩ := h _ brokenCmd wholeCmd (str "cmd") [] splits_brokenCmd
    splits_wholeCmd
  have hcontents : (XmlData.handleAll {} brokenCmd.events).map (·.path.map XMLNode.contents) =
      (XmlData.handleAll {} wholeCmd.events).map (·.path.map XMLNode.contents) := by
    rw [hbroken, hwhole]
  exact absurd hcontents (by decide)

end Peter
