import Peter.Lib.Delimited
import Peter.Xml

/-!
# What a printed tree says

`pp` copies names, values and contents into its text as they are.  `data_eq_of_printed`: where
values have no quote, contents no `<`, and no element with children passes for an empty one, the
text determines the tree, as far as it is printed at all (`data`).
-/

namespace Peter

open Delimited

namespace XMLNode

mutual

/-- The other `pp`, without indentation and line ends. -/
def ppFlat : XMLNode → Str
  | ⟨name, contents, nodeType, attributes, children⟩ =>
    if nodeType = .comment then str "<!--" ++ contents ++ str "-->"
    else
      let tag := str "<" ++ name ++ ppAttributes attributes
      if nodeType = .leaf ∧ contents = [] then tag ++ str " />"
      else
        let body := if children.isEmpty then contents else ppFlatAll children
        tag ++ str ">" ++ body ++ str "</" ++ name ++ str ">"

def ppFlatAll : List XMLNode → Str
  | [] => []
  | x :: xs => ppFlat x ++ ppFlatAll xs

end

/-! ## Trees of elements -/

/-- What may follow a name in a tag. -/
def EndsName (c : UInt8) : Prop := c ∈ str " =\"/<>"

instance : DecidablePred EndsName := fun c => inferInstanceAs (Decidable (c ∈ str " =\"/<>"))

/-- The names in a start tag have none of these characters. -/
def NamesOk (name : Str) (attributes : List (Str × Str)) : Prop :=
  (∀ c ∈ name, ¬EndsName c) ∧ ∀ av ∈ attributes, ∀ c ∈ av.1, ¬EndsName c

mutual

/-- The tree has elements only, with names that XML allows. -/
def IsElement : XMLNode → Prop
  | ⟨name, _, nodeType, attributes, children⟩ =>
    nodeType ≠ .comment ∧ NamesOk name attributes ∧ AreElements children

def AreElements : List XMLNode → Prop
  | [] => True
  | x :: xs => IsElement x ∧ AreElements xs

end

mutual

/-- No value has a quote, no contents of a childless element a `<`, and no element with children is
an `XML_LEAF` without contents. -/
def Plain : XMLNode → Prop
  | ⟨_, contents, nodeType, attributes, children⟩ =>
    (∀ av ∈ attributes, 34 ∉ av.2) ∧ (children = [] → 60 ∉ contents) ∧
      (nodeType = .leaf → contents = [] → children = []) ∧ PlainAll children

def PlainAll : List XMLNode → Prop
  | [] => True
  | x :: xs => Plain x ∧ PlainAll xs

end

mutual

/-- Names, attributes, children, and the contents of childless elements. -/
def data : XMLNode → XMLNode
  | ⟨name, contents, _, attributes, children⟩ =>
    { name, contents := if children.isEmpty then contents else [], attributes,
      children := dataAll children }

def dataAll : List XMLNode → List XMLNode
  | [] => []
  | x :: xs => data x :: dataAll xs

end

theorem isElement_iff : ∀ x : XMLNode, x.IsElement ↔
    x.nodeType ≠ .comment ∧ NamesOk x.name x.attributes ∧ AreElements x.children
  | ⟨_, _, _, _, _⟩ => by rw [IsElement]

theorem plain_iff : ∀ x : XMLNode, x.Plain ↔
    (∀ av ∈ x.attributes, 34 ∉ av.2) ∧ (x.children = [] → 60 ∉ x.contents) ∧
      (x.nodeType = .leaf → x.contents = [] → x.children = []) ∧ PlainAll x.children
  | ⟨_, _, _, _, _⟩ => by rw [Plain]

/-- `contents` as far as it is printed. -/
def text (x : XMLNode) : Str := if x.children.isEmpty then x.contents else []

theorem data_eq : ∀ x : XMLNode, x.data =
    { name := x.name, contents := x.text, attributes := x.attributes,
      children := dataAll x.children }
  | ⟨_, _, _, _, _⟩ => by rw [data, text]

/-! ## One printer -/

mutual

/-- Both printers: `nl` ends a line, `inc` is the indentation of a level. -/
def render (nl inc indent : Str) : XMLNode → Str
  | ⟨name, contents, nodeType, attributes, children⟩ =>
    if nodeType = .comment then str "<!--" ++ contents ++ str "-->" ++ nl
    else
      let tag := indent ++ str "<" ++ name ++ ppAttributes attributes
      if nodeType = .leaf ∧ contents = [] then tag ++ str " />" ++ nl
      else
        let body := if children.isEmpty then contents
          else nl ++ renderAll nl inc (indent ++ inc) children ++ indent
        tag ++ str ">" ++ body ++ str "</" ++ name ++ str ">" ++ nl

def renderAll (nl inc indent : Str) : List XMLNode → Str
  | [] => []
  | x :: xs => render nl inc indent x ++ renderAll nl inc indent xs

end

mutual

theorem pp_eq_render (indent : Str) :
    ∀ x : XMLNode, x.pp indent = x.render (str "\n") (str "  ") indent
  | ⟨name, contents, nodeType, attributes, children⟩ => by
    unfold pp render
    rw [ppAll_eq_renderAll (indent ++ str "  ") children]
    split_ifs <;> simp [str]

theorem ppAll_eq_renderAll (indent : Str) :
    ∀ xs : List XMLNode, ppAll indent xs = renderAll (str "\n") (str "  ") indent xs
  | [] => rfl
  | x :: xs => by rw [ppAll, renderAll, pp_eq_render indent x, ppAll_eq_renderAll indent xs]

end

mutual

theorem ppFlat_eq_render : ∀ x : XMLNode, x.ppFlat = x.render [] [] []
  | ⟨name, contents, nodeType, attributes, children⟩ => by
    unfold ppFlat render
    rw [@List.nil_append _ ([] : Str), ppFlatAll_eq_renderAll children]
    split_ifs <;> simp

theorem ppFlatAll_eq_renderAll : ∀ xs : List XMLNode, ppFlatAll xs = renderAll [] [] [] xs
  | [] => rfl
  | x :: xs => by rw [ppFlatAll, renderAll, ppFlat_eq_render x, ppFlatAll_eq_renderAll xs]

end

/-! ## Start tags -/

/-- What follows the attributes: the end of the tag. -/
def ClosesTag (s : Str) : Prop := (∃ t, s = str ">" ++ t) ∨ ∃ t, s = str " />" ++ t

theorem ClosesTag.startsWith {s : Str} (h : ClosesTag s) : StartsWith EndsName s := by
  rcases h with ⟨t, rfl⟩ | ⟨t, rfl⟩
  · exact ⟨62, t, rfl, by decide⟩
  · exact ⟨32, str "/>" ++ t, rfl, by decide⟩

theorem startsWith_ppAttributes (attributes : List (Str × Str)) {s : Str} (hs : ClosesTag s) :
    StartsWith EndsName (ppAttributes attributes ++ s) := by
  rcases attributes with _ | ⟨av, attributes⟩
  · exact hs.startsWith
  · exact ⟨32, _, rfl, by decide⟩

theorem ppAttributes_cons (a v : Str) (l : List (Str × Str)) (r : Str) :
    ppAttributes ((a, v) :: l) ++ r =
      str " " ++ a ++ str "=\"" ++ v ++ str "\"" ++ (ppAttributes l ++ r) := by
  simp [ppAttributes]

/-- An attribute does not begin like the end of a tag. -/
theorem attribute_ne_close {a v r s : Str} (ha : ∀ c ∈ a, ¬EndsName c) (hs : ClosesTag s) :
    str " " ++ a ++ str "=\"" ++ v ++ str "\"" ++ r ≠ s := by
  rintro rfl
  rcases hs with ⟨t, ht⟩ | ⟨t, ht⟩
  · cases ht
  · rcases a with _ | ⟨c, a⟩
    · cases ht
    · have hc := ha c List.mem_cons_self
      injection ht with _ ht
      injection ht with hc' _
      rw [hc'] at hc
      exact hc (by decide)

/-- The attributes are known from the start tag. -/
theorem attributes_inj {as as' : List (Str × Str)} {s s' : Str}
    (hn : ∀ av ∈ as, ∀ c ∈ av.1, ¬EndsName c) (hn' : ∀ av ∈ as', ∀ c ∈ av.1, ¬EndsName c)
    (hv : ∀ av ∈ as, 34 ∉ av.2) (hv' : ∀ av ∈ as', 34 ∉ av.2)
    (hs : ClosesTag s) (hs' : ClosesTag s') (h : ppAttributes as ++ s = ppAttributes as' ++ s') :
    as = as' ∧ s = s' := by
  induction as generalizing as' with
  | nil =>
    rcases as' with _ | ⟨⟨a, v⟩, as'⟩
    · exact ⟨rfl, h⟩
    · rw [ppAttributes_cons] at h
      exact absurd h.symm (attribute_ne_close (hn' (a, v) List.mem_cons_self) hs)
  | cons av as ih =>
    obtain ⟨a, v⟩ := av
    rcases as' with _ | ⟨⟨a', v'⟩, as'⟩
    · rw [ppAttributes_cons] at h
      exact absurd h (attribute_ne_close (hn (a, v) List.mem_cons_self) hs')
    · obtain ⟨hna, hnas⟩ := List.forall_mem_cons.1 hn
      obtain ⟨hna', hnas'⟩ := List.forall_mem_cons.1 hn'
      obtain ⟨hva, hvas⟩ := List.forall_mem_cons.1 hv
      obtain ⟨hva', hvas'⟩ := List.forall_mem_cons.1 hv'
      rw [ppAttributes_cons, ppAttributes_cons] at h
      simp only [List.append_assoc, List.append_cancel_left_eq] at h
      obtain ⟨rfl, h⟩ := append_inj_of_delimited hna hna' ⟨61, _, rfl, by decide⟩
        ⟨61, _, rfl, by decide⟩ h
      simp only [List.append_cancel_left_eq] at h
      obtain ⟨rfl, h⟩ := append_inj_of_delimited (P := (· = 34)) (fun c hc he => hva (he ▸ hc))
        (fun c hc he => hva' (he ▸ hc)) ⟨34, _, rfl, rfl⟩ ⟨34, _, rfl, rfl⟩ h
      simp only [List.append_cancel_left_eq] at h
      obtain ⟨rfl, hs⟩ := ih hnas hnas' hvas hvas' h
      exact ⟨rfl, hs⟩

/-! ## Elements -/

/-- What an element prints between its tags. -/
def body (nl inc indent : Str) (x : XMLNode) : Str :=
  if x.children.isEmpty then x.contents
  else nl ++ renderAll nl inc (indent ++ inc) x.children ++ indent

/-- What an element prints after its attributes. -/
def rest (nl inc indent : Str) (x : XMLNode) : Str :=
  if x.nodeType = .leaf ∧ x.contents = [] then str " />" ++ nl
  else str ">" ++ (x.body nl inc indent ++ (str "</" ++ (x.name ++ (str ">" ++ nl))))

theorem closesTag_rest (nl inc indent : Str) (x : XMLNode) (r : Str) :
    ClosesTag (x.rest nl inc indent ++ r) := by
  unfold rest
  split_ifs
  · exact .inr ⟨nl ++ r, by simp⟩
  · exact .inl ⟨_, List.append_assoc ..⟩

theorem render_element (nl inc indent : Str) {x : XMLNode} (hx : x.IsElement) (r : Str) :
    x.render nl inc indent ++ r = indent ++
      (str "<" ++ (x.name ++ (ppAttributes x.attributes ++ (x.rest nl inc indent ++ r)))) := by
  obtain ⟨name, contents, nodeType, attributes, children⟩ := x
  have hc : nodeType ≠ .comment := ((isElement_iff _).1 hx).1
  unfold render rest body
  rw [if_neg hc]
  by_cases hleaf : nodeType = .leaf ∧ contents = []
  · rw [if_pos hleaf, if_pos hleaf]
    simp
  · rw [if_neg hleaf, if_neg hleaf]
    simp

/-- A start tag is no end tag. -/
theorem not_endTag {name s : Str} (hn : ∀ c ∈ name, ¬EndsName c) (attributes : List (Str × Str))
    (hs : ClosesTag s) (t : Str) :
    str "<" ++ (name ++ (ppAttributes attributes ++ s)) ≠ str "</" ++ t := by
  have hfirst : StartsWith (· ≠ 47) (name ++ (ppAttributes attributes ++ s)) := by
    rcases name with _ | ⟨c, name⟩
    · rcases attributes with _ | ⟨av, attributes⟩
      · rcases hs with ⟨u, rfl⟩ | ⟨u, rfl⟩
        · exact ⟨62, u, rfl, by decide⟩
        · exact ⟨32, str "/>" ++ u, rfl, by decide⟩
      · exact ⟨32, _, rfl, by decide⟩
    · refine ⟨c, _, rfl, ?_⟩
      rintro rfl
      exact hn 47 List.mem_cons_self (by decide)
  intro h
  have h : name ++ (ppAttributes attributes ++ s) = 47 :: t := (List.cons.inj h).2
  exact hfirst.ne (Q := (· = 47)) (fun _ hne he => hne he) ⟨47, t, rfl, rfl⟩ h

/-- The text before the first `<` is known. -/
theorem text_inj {l l' r r' : Str} (hl : 60 ∉ l) (hl' : 60 ∉ l')
    (h : l ++ (str "<" ++ r) = l' ++ (str "<" ++ r')) : l = l' ∧ r = r' := by
  obtain ⟨hl, hr⟩ := append_inj_of_delimited (P := (· = 60)) (fun c hc he => hl (he ▸ hc))
    (fun c hc he => hl' (he ▸ hc)) ⟨60, r, rfl, rfl⟩ ⟨60, r', rfl, rfl⟩ h
  exact ⟨hl, (List.cons.inj hr).2⟩

/-- An end tag begins like any other. -/
theorem endTag_eq (t : Str) : str "</" ++ t = str "<" ++ (str "/" ++ t) := rfl

/-- Behind the first `<` an element goes on otherwise than an end tag. -/
theorem element_ne_endTag (nl inc : Str) {indent l l' : Str} {x : XMLNode} (hx : x.IsElement)
    (hi : 60 ∉ indent) (hl : 60 ∉ l) (hl' : 60 ∉ l') (r t : Str) :
    l ++ (x.render nl inc indent ++ r) ≠ l' ++ (str "</" ++ t) := by
  intro h
  rw [render_element nl inc indent hx, ← List.append_assoc] at h
  have hpre : 60 ∉ l ++ indent := by simp [hl, hi]
  rw [endTag_eq] at h
  obtain ⟨-, h⟩ := text_inj hpre hl' h
  exact not_endTag ((isElement_iff x).1 hx).2.1.1 x.attributes (closesTag_rest nl inc indent x r) t
    (congrArg (str "<" ++ ·) h)

/-- The text of a childless element goes on to the end tag, children begin a tag before it. -/
theorem body_inj {nl inc indent : Str} {x y : XMLNode} (hnl : 60 ∉ nl) (hinc : 60 ∉ inc)
    (hi : 60 ∉ indent) (hx : AreElements x.children) (hy : AreElements y.children)
    (htext : x.children = [] → 60 ∉ x.contents) (htext' : y.children = [] → 60 ∉ y.contents)
    (hchildren : ∀ t t', renderAll nl inc (indent ++ inc) x.children ++
        (indent ++ (str "</" ++ t)) =
      renderAll nl inc (indent ++ inc) y.children ++ (indent ++ (str "</" ++ t')) →
      dataAll x.children = dataAll y.children ∧ t = t') {t t' : Str}
    (h : x.body nl inc indent ++ (str "</" ++ t) = y.body nl inc indent ++ (str "</" ++ t')) :
    x.text = y.text ∧ dataAll x.children = dataAll y.children ∧ t = t' := by
  have hpre : 60 ∉ indent ++ inc := by simp [hi, hinc]
  unfold body at h
  unfold text
  rcases hcx : x.children with _ | ⟨c, cs⟩ <;> rcases hcy : y.children with _ | ⟨d, ds⟩ <;>
    simp only [hcx, hcy, List.isEmpty_nil, List.isEmpty_cons, if_true, Bool.false_eq_true,
      if_false] at h hchildren hx hy ⊢
  · rw [endTag_eq, endTag_eq] at h
    obtain ⟨hcontents, h⟩ := text_inj (htext hcx) (htext' hcy) h
    exact ⟨hcontents, trivial, List.append_cancel_left h⟩
  · simp only [renderAll, List.append_assoc] at h
    exact absurd h.symm (element_ne_endTag nl inc hy.1 hpre hnl (htext hcx) _ _)
  · simp only [renderAll, List.append_assoc] at h
    exact absurd h (element_ne_endTag nl inc hx.1 hpre hnl (htext' hcy) _ _)
  · simp only [List.append_assoc, List.append_cancel_left_eq] at h
    exact ⟨trivial, hchildren t t' h⟩

theorem rest_inj {nl inc indent : Str} {x y : XMLNode} (hnl : 60 ∉ nl) (hinc : 60 ∉ inc)
    (hi : 60 ∉ indent) (hname : x.name = y.name) (hx : AreElements x.children)
    (hy : AreElements y.children) (htext : x.children = [] → 60 ∉ x.contents)
    (htext' : y.children = [] → 60 ∉ y.contents)
    (hempty : x.nodeType = .leaf → x.contents = [] → x.children = [])
    (hempty' : y.nodeType = .leaf → y.contents = [] → y.children = [])
    (hchildren : ∀ t t', renderAll nl inc (indent ++ inc) x.children ++
        (indent ++ (str "</" ++ t)) =
      renderAll nl inc (indent ++ inc) y.children ++ (indent ++ (str "</" ++ t')) →
      dataAll x.children = dataAll y.children ∧ t = t') {r r' : Str}
    (h : x.rest nl inc indent ++ r = y.rest nl inc indent ++ r') :
    x.text = y.text ∧ dataAll x.children = dataAll y.children ∧ r = r' := by
  unfold rest at h
  by_cases hlx : x.nodeType = .leaf ∧ x.contents = [] <;>
    by_cases hly : y.nodeType = .leaf ∧ y.contents = []
  · rw [if_pos hlx, if_pos hly] at h
    refine ⟨?_, ?_, ?_⟩
    · rw [text, text, hlx.2, hly.2, hempty hlx.1 hlx.2, hempty' hly.1 hly.2]
    · rw [hempty hlx.1 hlx.2, hempty' hly.1 hly.2]
    · exact List.append_cancel_left h
  · rw [if_pos hlx, if_neg hly] at h
    cases h
  · rw [if_neg hlx, if_pos hly] at h
    cases h
  · rw [if_neg hlx, if_neg hly, hname] at h
    simp only [List.append_assoc, List.append_cancel_left_eq] at h
    obtain ⟨htxt, hsub, hr⟩ := body_inj hnl hinc hi hx hy htext htext' hchildren h
    simp only [List.append_cancel_left_eq] at hr
    exact ⟨htxt, hsub, hr⟩

mutual

/-- An element is known from any text that begins with it: names end at their delimiters, values
at their quote, contents at `<`, and the children at the end tag. -/
theorem render_inj {nl inc : Str} (hnl : 60 ∉ nl) (hinc : 60 ∉ inc) :
    ∀ (x y : XMLNode) (indent r r' : Str), 60 ∉ indent → x.IsElement → y.IsElement → x.Plain →
      y.Plain → x.render nl inc indent ++ r = y.render nl inc indent ++ r' →
      x.data = y.data ∧ r = r'
  | ⟨name, contents, nodeType, attributes, children⟩, y, indent, r, r', hi, hx, hy, px, py, h => by
    rw [render_element nl inc indent hx, render_element nl inc indent hy] at h
    obtain ⟨-, hnames, hchildren⟩ := (isElement_iff _).1 hx
    obtain ⟨-, hnames', hchildren'⟩ := (isElement_iff _).1 hy
    obtain ⟨hvalues, htext, hempty, pchildren⟩ := (plain_iff _).1 px
    obtain ⟨hvalues', htext', hempty', pchildren'⟩ := (plain_iff _).1 py
    simp only [List.append_cancel_left_eq] at h
    obtain ⟨hname, h⟩ := append_inj_of_delimited hnames.1 hnames'.1
      (startsWith_ppAttributes _ (closesTag_rest ..)) (startsWith_ppAttributes _ (closesTag_rest ..))
      h
    obtain ⟨hattributes, h⟩ := attributes_inj hnames.2 hnames'.2 hvalues hvalues'
      (closesTag_rest ..) (closesTag_rest ..) h
    obtain ⟨htxt, hsub, hr⟩ := rest_inj hnl hinc hi hname hchildren hchildren' htext htext' hempty
      hempty' (renderAll_inj hnl hinc children y.children indent · · hi hchildren hchildren'
        pchildren pchildren') h
    rw [data_eq, data_eq, htxt, hsub, hname, hattributes]
    exact ⟨rfl, hr⟩

theorem renderAll_inj {nl inc : Str} (hnl : 60 ∉ nl) (hinc : 60 ∉ inc) :
    ∀ (xs ys : List XMLNode) (indent t t' : Str), 60 ∉ indent → AreElements xs → AreElements ys →
      PlainAll xs → PlainAll ys →
      renderAll nl inc (indent ++ inc) xs ++ (indent ++ (str "</" ++ t)) =
        renderAll nl inc (indent ++ inc) ys ++ (indent ++ (str "</" ++ t')) →
      dataAll xs = dataAll ys ∧ t = t'
  | [], [], indent, t, t', _, _, _, _, _, h => by
    simp only [renderAll, List.nil_append, List.append_cancel_left_eq] at h
    exact ⟨rfl, h⟩
  | [], y :: ys, indent, t, t', hi, _, hy, _, _, h => by
    simp only [renderAll, List.nil_append, List.append_assoc] at h
    exact absurd h.symm (element_ne_endTag nl inc hy.1 (l := [])
      (by simp [hi, hinc]) List.not_mem_nil hi _ _)
  | x :: xs, [], indent, t, t', hi, hx, _, _, _, h => by
    simp only [renderAll, List.nil_append, List.append_assoc] at h
    exact absurd h (element_ne_endTag nl inc hx.1 (l := [])
      (by simp [hi, hinc]) List.not_mem_nil hi _ _)
  | x :: xs, y :: ys, indent, t, t', hi, hx, hy, px, py, h => by
    simp only [renderAll, List.append_assoc] at h
    obtain ⟨hdata, h⟩ := render_inj hnl hinc x y (indent ++ inc) _ _ (by simp [hi, hinc]) hx.1 hy.1
      px.1 py.1 h
    obtain ⟨hdatas, ht⟩ := renderAll_inj hnl hinc xs ys indent t t' hi hx.2 hy.2 px.2 py.2 h
    exact ⟨by rw [dataAll, dataAll, hdata, hdatas], ht⟩

end

/-! ## Texts and trees -/

/-- Elements that print the same text, by either `pp`, are the same element. -/
theorem data_eq_of_printed {x y : XMLNode} (hx : x.IsElement) (hy : y.IsElement) (px : x.Plain)
    (py : y.Plain)
    (h : (∃ indent, 60 ∉ indent ∧ x.pp indent = y.pp indent) ∨ x.ppFlat = y.ppFlat) :
    x.data = y.data := by
  rcases h with ⟨indent, hi, h⟩ | h
  · rw [pp_eq_render, pp_eq_render] at h
    have h' := congrArg (· ++ ([] : Str)) h
    exact (render_inj (by decide) (by decide) x y indent [] [] hi hx hy px py h').1
  · rw [ppFlat_eq_render, ppFlat_eq_render] at h
    have h' := congrArg (· ++ ([] : Str)) h
    exact (render_inj (by decide) (by decide) x y [] [] [] (by decide) hx hy px py h').1

/-- An answer with a program and a text below its scheduler; its elements may be of two types. -/
def answerTree (t : NodeType) : XMLNode where
  name := str "peter"
  nodeType := t
  children := [
    { name := str "scheduler"
      nodeType := t
      attributes := [(str "name", str "default")]
      children := [
        { name := str "program"
          nodeType := .leaf
          attributes := [(str "name", str "sleeper"), (str "pid", str "1")] },
        { name := str "seq", nodeType := t, contents := str "2 of 3" }] }]

theorem answerTree_isElement {t : NodeType} (ht : t ≠ .comment) : (answerTree t).IsElement := by
  simp only [answerTree, IsElement, AreElements, NamesOk]
  cases t with
  | comment => exact absurd rfl ht
  | _ => decide

theorem answerTree_plain {t : NodeType} (ht : t ≠ .leaf) : (answerTree t).Plain := by
  simp only [answerTree, Plain, PlainAll]
  cases t with
  | leaf => exact absurd rfl ht
  | _ => decide

/-- Nodes that were made an `XML_NODE` print as before. -/
theorem data_eq_of_printed_answer : (answerTree .undef).data = (answerTree .node).data :=
  data_eq_of_printed (answerTree_isElement (by decide)) (answerTree_isElement (by decide))
    (answerTree_plain (by decide)) (answerTree_plain (by decide)) (.inl ⟨[], by decide, by decide⟩)

/-- A program called `a" pid="7` prints like the program `a` with a process id. -/
theorem data_ne_of_printed :
    let x := addAttribute { name := str "program" } (str "name") (str "a\" pid=\"7")
    let y := addAttribute (addAttribute { name := str "program" } (str "name") (str "a"))
      (str "pid") (str "7")
    (x.IsElement ∧ y.IsElement) ∧ (x.toStr = y.toStr ∧ x.ppFlat = y.ppFlat) ∧ x.data ≠ y.data := by
  refine ⟨⟨?_, ?_⟩, ⟨by decide, by decide⟩, fun h => ?_⟩
  · exact (isElement_iff _).2 ⟨by decide, ⟨by decide, by decide⟩, trivial⟩
  · exact (isElement_iff _).2 ⟨by decide, ⟨by decide, by decide⟩, trivial⟩
  · exact absurd (congrArg XMLNode.attributes h) (by decide)

example : toStr { name := str "a", contents := str "\n  <b></b>\n" } =
    toStr (addChild { name := str "a" } { name := str "b" }) := by decide

example : toStr (setContents (addChild { name := str "a" } { name := str "b" }) []) =
    toStr (setContents { name := str "a" } []) := by decide

end XMLNode

end Peter
