import Peter.Config
import Peter.Lib.BreadthFirst

/-!
# Searching a tree for contents

`find_contents` looks at the children of a node and then into each of them in turn, and takes every
non-empty text for a find, the default included.  `findContents_iff` compares it with the first
node of the name in breadth-first order.
-/

namespace Peter

namespace XMLNode

theorem sum_sizeOf_lt (xs : List XMLNode) : (xs.map sizeOf).sum < sizeOf xs := by
  induction xs with
  | nil => simp
  | cons x xs ih =>
    simp only [List.map_cons, List.sum_cons, List.cons.sizeOf_spec]
    omega

theorem children_shrink : BreadthFirst.Shrinks children sizeOf := by
  rintro ⟨name, contents, nodeType, attributes, children⟩
  have h := sum_sizeOf_lt children
  simp only [XMLNode.mk.sizeOf_spec]
  omega

/-- The nodes below a node, in breadth-first order. -/
def breadthFirst (x : XMLNode) : List XMLNode := BreadthFirst.order children_shrink x.children

/-- A node somewhere below another. -/
def Below (x y : XMLNode) : Prop := Relation.TransGen (fun a b => b ∈ a.children) x y

theorem mem_breadthFirst_iff (x y : XMLNode) : y ∈ x.breadthFirst ↔ x.Below y := by
  unfold breadthFirst Below
  rw [BreadthFirst.mem_order_iff, Relation.TransGen.head'_iff]

/-- The first node of the name below a node, in breadth-first order. -/
def firstNamed (name : Str) (x : XMLNode) : Option XMLNode :=
  x.breadthFirst.find? fun y => y.name = name

theorem firstNamed_eq_none_iff (name : Str) (x : XMLNode) :
    x.firstNamed name = none ↔ ∀ y, x.Below y → y.name ≠ name := by
  unfold firstNamed
  rw [List.find?_eq_none]
  simp only [mem_breadthFirst_iff, decide_eq_true_eq]

mutual

/-- The texts `find_contents` comes by, in document order: of a node with children of the name the
contents of the first one, of any other the texts of its children and then the default. -/
def texts (name deflt : Str) : XMLNode → List Str
  | ⟨_, _, _, _, children⟩ =>
    (children.find? fun c => c.name = name).elim (textsAll name deflt children ++ [deflt])
      fun c => [c.contents]

def textsAll (name deflt : Str) : List XMLNode → List Str
  | [] => []
  | x :: xs => texts name deflt x ++ textsAll name deflt xs

end

/-- The first text that is not empty, or the empty text. -/
def firstText (ts : List Str) : Str := (ts.find? (!·.isEmpty)).getD []

@[simp] theorem firstText_nil : firstText [] = [] := rfl

theorem firstText_cons (t : Str) (ts : List Str) :
    firstText (t :: ts) = if t ≠ [] then t else firstText ts := by
  cases t <;> rfl

theorem firstText_singleton (t : Str) : firstText [t] = t := by
  cases t <;> rfl

theorem firstText_append (ts us : List Str) :
    firstText (ts ++ us) = if firstText ts ≠ [] then firstText ts else firstText us := by
  induction ts with
  | nil => simp
  | cons t ts ih =>
    rw [List.cons_append, firstText_cons, firstText_cons, ih]
    by_cases ht : t = []
    · simp [ht]
    · simp [ht]

mutual

theorem findContents_eq_firstText (name deflt : Str) :
    ∀ x : XMLNode, x.findContents name deflt = firstText (texts name deflt x)
  | ⟨_, _, _, _, children⟩ => by
    rw [findContents, texts]
    cases children.find? fun c => c.name = name with
    | none => exact findContentsIn_eq_firstText name deflt children
    | some c => exact (firstText_singleton c.contents).symm

theorem findContentsIn_eq_firstText (name deflt : Str) :
    ∀ xs : List XMLNode, findContentsIn name deflt xs = firstText (textsAll name deflt xs ++ [deflt])
  | [] => by
    rw [findContentsIn, textsAll, List.nil_append, firstText_singleton]
  | x :: xs => by
    rw [findContentsIn, textsAll, List.append_assoc, firstText_append,
      ← findContents_eq_firstText name deflt x, ← findContentsIn_eq_firstText name deflt xs]

end

/-- The text leads the list: those before it are empty, and if it is empty those after it are. -/
def Leads (w : Str) (ts : List Str) : Prop :=
  ∃ before after, ts = before ++ w :: after ∧ (∀ t ∈ before, t = []) ∧
    (w = [] → ∀ t ∈ after, t = [])

theorem leads_cons_nil_iff {w : Str} {ts : List Str} (hts : ts ≠ []) :
    Leads w ([] :: ts) ↔ Leads w ts := by
  constructor
  · rintro ⟨before, after, hsplit, hbefore, hafter⟩
    rcases before with _ | ⟨b, before⟩
    · cases hsplit
      obtain ⟨t, ts, rfl⟩ := List.exists_cons_of_ne_nil hts
      have ht := hafter rfl t List.mem_cons_self
      subst ht
      exact ⟨[], ts, rfl, by simp, fun _ t ht => hafter rfl t (List.mem_cons_of_mem _ ht)⟩
    · cases hsplit
      exact ⟨before, after, rfl, fun t ht => hbefore t (List.mem_cons_of_mem _ ht), hafter⟩
  · rintro ⟨before, after, rfl, hbefore, hafter⟩
    exact ⟨[] :: before, after, rfl, List.forall_mem_cons.mpr ⟨rfl, hbefore⟩, hafter⟩

theorem leads_cons_iff {w t : Str} (ht : t ≠ []) (ts : List Str) :
    Leads w (t :: ts) ↔ t = w := by
  constructor
  · rintro ⟨before, after, hsplit, hbefore, hafter⟩
    rcases before with _ | ⟨b, before⟩
    · cases hsplit
      rfl
    · cases hsplit
      exact absurd (hbefore t List.mem_cons_self) ht
  · rintro rfl
    exact ⟨[], ts, rfl, by simp, fun h => absurd h ht⟩

theorem firstText_eq_iff (w : Str) {ts : List Str} (hts : ts ≠ []) :
    firstText ts = w ↔ Leads w ts := by
  induction ts with
  | nil => exact absurd rfl hts
  | cons t ts ih =>
    rw [firstText_cons]
    by_cases ht : t = []
    · subst ht
      rw [if_neg (not_not_intro rfl)]
      by_cases hts : ts = []
      · subst hts
        constructor
        · rintro rfl
          exact ⟨[], [], rfl, by simp, by simp⟩
        · rintro ⟨before, after, hsplit, -, -⟩
          rcases before with _ | ⟨b, before⟩
          · cases hsplit
            rfl
          · simp at hsplit
      · rw [ih hts, leads_cons_nil_iff hts]
    · rw [if_pos ht, leads_cons_iff ht]

theorem texts_ne_nil (name deflt : Str) : ∀ x : XMLNode, texts name deflt x ≠ []
  | ⟨_, _, _, _, children⟩ => by
    rw [texts]
    cases children.find? fun c => c.name = name <;> simp

/-- A child of the name comes first in both orders. -/
theorem firstNamed_of_child {name : Str} {x c : XMLNode}
    (h : (x.children.find? fun y => y.name = name) = some c) : x.firstNamed name = some c := by
  unfold firstNamed breadthFirst
  rw [BreadthFirst.order_eq, List.find?_append, h]
  rfl

theorem findContents_of_child {name : Str} (deflt : Str) : ∀ {x c : XMLNode},
    (x.children.find? fun y => y.name = name) = some c → x.findContents name deflt = c.contents
  | ⟨_, _, _, _, children⟩, c, h => by
    rw [findContents, h]

mutual

/-- Without a node of the name the default is what is left. -/
theorem findContents_of_none (name deflt : Str) :
    ∀ x : XMLNode, (∀ y, x.Below y → y.name ≠ name) → x.findContents name deflt = deflt
  | ⟨n, c, t, a, children⟩, h => by
    have hchild : ∀ y ∈ children, y.name ≠ name := fun y hy => h y (.single hy)
    have hnone : children.find? (fun y => y.name = name) = none :=
      List.find?_eq_none.mpr fun y hy => by simpa using hchild y hy
    rw [findContents, hnone]
    exact findContentsIn_of_none name deflt children fun x hx y hy =>
      h y (Relation.TransGen.head hx hy)

theorem findContentsIn_of_none (name deflt : Str) :
    ∀ xs : List XMLNode, (∀ x ∈ xs, ∀ y, x.Below y → y.name ≠ name) →
      findContentsIn name deflt xs = deflt
  | [], _ => rfl
  | x :: xs, h => by
    rw [findContentsIn, findContents_of_none name deflt x (h x List.mem_cons_self),
      findContentsIn_of_none name deflt xs fun y hy => h y (List.mem_cons_of_mem x hy)]
    exact ite_self deflt

end

/-- `find_contents` gives the contents of the first node of the name in breadth-first order, or the
default without one, when no node below has the name, a child has it, or these contents lead the
texts of the tree. -/
theorem findContents_iff (name deflt : Str) (x : XMLNode) :
    x.findContents name deflt = (x.firstNamed name).elim deflt contents ↔
      (∀ y, x.Below y → y.name ≠ name) ∨ (∃ c ∈ x.children, c.name = name) ∨
        ∃ y, x.firstNamed name = some y ∧ Leads y.contents (texts name deflt x) := by
  cases hfirst : x.firstNamed name with
  | none =>
    have hnone := (firstNamed_eq_none_iff name x).mp hfirst
    exact iff_of_true (findContents_of_none name deflt x hnone) (Or.inl hnone)
  | some y =>
    have hsome : ¬∀ y, x.Below y → y.name ≠ name := fun h => by
      rw [(firstNamed_eq_none_iff name x).mpr h] at hfirst
      cases hfirst
    rw [Option.elim_some, findContents_eq_firstText, firstText_eq_iff _ (texts_ne_nil name deflt x)]
    constructor
    · exact fun h => Or.inr (Or.inr ⟨y, rfl, h⟩)
    · rintro (h | ⟨c, hc, hname⟩ | ⟨z, hz, h⟩)
      · exact absurd h hsome
      · have hfound : (x.children.find? fun y => y.name = name).isSome := by
          rw [List.find?_isSome]
          exact ⟨c, hc, by simpa using hname⟩
        obtain ⟨d, hd⟩ := Option.isSome_iff_exists.mp hfound
        obtain rfl : d = y := by
          rw [firstNamed_of_child hd] at hfirst
          exact Option.some.inj hfirst
        rw [← firstText_eq_iff _ (texts_ne_nil name deflt x), ← findContents_eq_firstText,
          findContents_of_child deflt hd]
      · cases hz
        exact h

/-- The home of a program is not found below its second child, whose contents are the only ones of
that name. -/
theorem findContents_home :
    let env : XMLNode :=
      { name := str "env", children := [{ name := str "home", contents := str "/srv" }] }
    let prog : XMLNode := { name := str "program", children := [{ name := str "cmd" }, env] }
    prog.findContents (str "home") (str "./") = str "./" ∧
      (prog.firstNamed (str "home")).elim (str "./") contents = str "/srv" := by
  intro env prog
  constructor
  · decide
  · have horder : prog.breadthFirst = [{ name := str "cmd" }, env,
        { name := str "home", contents := str "/srv" }] := by
      simp [breadthFirst, BreadthFirst.order, prog, env]
    rw [firstNamed, horder]
    decide

end XMLNode

end Peter
