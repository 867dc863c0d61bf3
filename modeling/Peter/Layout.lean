import Peter.Printing

/-!
# The two layouts of a tree

`pp` with an indentation and `pp` without one emit the same tokens.  A layout puts the indentation
of its depth before a tag and ends the line after it, except next to the contents of an element
without children; `printers_agree`: that is `pp` with an indentation, when lines end after comments
as well.
-/

namespace Peter

/-- What is printed of a node: its tags with the attributes, its contents, or a comment. -/
inductive Token
  | start (name : Str) (attributes : List (Str × Str))
  | empty (name : Str) (attributes : List (Str × Str))
  | stop (name : Str)
  | text (contents : Str)
  | comment (contents : Str)

namespace Token

def print : Token → Str
  | start name attributes => str "<" ++ name ++ XMLNode.ppAttributes attributes ++ str ">"
  | empty name attributes => str "<" ++ name ++ XMLNode.ppAttributes attributes ++ str " />"
  | stop name => str "</" ++ name ++ str ">"
  | text contents => contents
  | comment contents => str "<!--" ++ contents ++ str "-->"

def isText : Token → Bool
  | text _ => true
  | _ => false

def isComment : Token → Bool
  | comment _ => true
  | _ => false

def isTag (t : Token) : Bool := !t.isText && !t.isComment

end Token

namespace XMLNode

mutual

/-- The tokens of a tree in order, each with its depth. -/
def tokens (k : ℕ) : XMLNode → List (ℕ × Token)
  | ⟨name, contents, nodeType, attributes, children⟩ =>
    if nodeType = .comment then [(k, .comment contents)]
    else if nodeType = .leaf ∧ contents = [] then [(k, .empty name attributes)]
    else
      let body := if children.isEmpty then [(k, .text contents)] else tokensAll (k + 1) children
      (k, .start name attributes) :: body ++ [(k, .stop name)]

def tokensAll (k : ℕ) : List XMLNode → List (ℕ × Token)
  | [] => []
  | x :: xs => tokens k x ++ tokensAll k xs

end

/-- The indentation at a depth. -/
def margin (inc indent : Str) (k : ℕ) : Str := indent ++ (List.replicate k inc).flatten

/-- The first token is contents. -/
def startsText (ts : List (ℕ × Token)) : Bool := ts.head?.any (·.2.isText)

/-- Tokens in lines: indentation before every tag and a line end after every token of `ends`, but
neither next to contents (`afterText`: contents have just been printed). -/
def lay (ends : Token → Bool) (nl inc indent : Str) : Bool → List (ℕ × Token) → Str
  | _, [] => []
  | afterText, (k, t) :: ts =>
    (if t.isTag && !afterText then margin inc indent k else []) ++ t.print ++
      (if ends t && !startsText ts then nl else []) ++ lay ends nl inc indent t.isText ts

theorem margin_succ (inc indent : Str) (k : ℕ) :
    margin inc indent (k + 1) = margin inc indent k ++ inc := by
  unfold margin
  rw [List.replicate_succ', List.flatten_append, List.append_assoc]
  simp

@[simp] theorem startsText_cons (k : ℕ) (t : Token) (ts : List (ℕ × Token)) :
    startsText ((k, t) :: ts) = t.isText := rfl

theorem startsText_tokens (k : ℕ) (ts : List (ℕ × Token)) (x : XMLNode) :
    startsText (tokens k x ++ ts) = false := by
  obtain ⟨name, contents, nodeType, attributes, children⟩ := x
  unfold tokens
  split_ifs <;> rfl

theorem startsText_tokensAll (k : ℕ) {ts : List (ℕ × Token)} (h : startsText ts = false)
    (xs : List XMLNode) : startsText (tokensAll k xs ++ ts) = false := by
  cases xs with
  | nil => exact h
  | cons x xs =>
    rw [tokensAll, List.append_assoc]
    exact startsText_tokens k _ x

/-- The line ends of `pp`. -/
def endsLine (t : Token) : Bool := t.isTag || t.isComment

variable (nl inc indent : Str)

mutual

/-- A node is laid out at its depth, and what follows it as if it stood alone. -/
theorem lay_tokens (k : ℕ) {ts : List (ℕ × Token)} (h : startsText ts = false) :
    ∀ x : XMLNode, lay endsLine nl inc indent false (tokens k x ++ ts) =
      render nl inc (margin inc indent k) x ++ lay endsLine nl inc indent false ts
  | ⟨name, contents, nodeType, attributes, children⟩ => by
    unfold tokens render
    by_cases hcomment : nodeType = .comment
    · rw [if_pos hcomment, if_pos hcomment]
      simp [lay, Token.isTag, Token.isText, Token.isComment, Token.print, endsLine, h]
    · rw [if_neg hcomment, if_neg hcomment]
      by_cases hempty : nodeType = .leaf ∧ contents = []
      · rw [if_pos hempty, if_pos hempty]
        simp [lay, Token.isTag, Token.isText, Token.isComment, Token.print, endsLine, h]
      · rw [if_neg hempty, if_neg hempty]
        have hstop : startsText ((k, .stop name) :: ts) = false := rfl
        cases children with
        | nil =>
          simp [lay, Token.isTag, Token.isText, Token.isComment, Token.print, endsLine, h]
        | cons c cs =>
          have hbody := lay_tokensAll (k + 1) hstop (c :: cs)
          have hstart := startsText_tokensAll (k + 1) hstop (c :: cs)
          rw [margin_succ] at hbody
          simp only [List.isEmpty_cons, Bool.false_eq_true, if_false, List.cons_append,
            List.append_assoc, List.nil_append]
          rw [lay, hstart, show (Token.start name attributes).isText = false from rfl, hbody]
          simp [lay, Token.isTag, Token.isText, Token.isComment, Token.print, endsLine, h]

theorem lay_tokensAll (k : ℕ) {ts : List (ℕ × Token)} (h : startsText ts = false) :
    ∀ xs : List XMLNode, lay endsLine nl inc indent false (tokensAll k xs ++ ts) =
      renderAll nl inc (margin inc indent k) xs ++ lay endsLine nl inc indent false ts
  | [] => rfl
  | x :: xs => by
    rw [tokensAll, renderAll, List.append_assoc, lay_tokens k (startsText_tokensAll k h xs) x,
      lay_tokensAll k h xs, List.append_assoc]

end

/-- Without line ends and indentation the tokens stand side by side. -/
theorem lay_flat (ends : Token → Bool) (afterText : Bool) (ts : List (ℕ × Token)) :
    lay ends [] [] [] afterText ts = ts.flatMap (·.2.print) := by
  induction ts generalizing afterText with
  | nil => rfl
  | cons kt ts ih => simp [lay, margin, ih]

/-- `pp` without an indentation is the tokens of the tree side by side, and `pp` with one the same
tokens in lines, where comments end lines too. -/
theorem printers_agree (x : XMLNode) (indent : Str) :
    x.ppFlat = (x.tokens 0).flatMap (·.2.print) ∧
      x.pp indent = lay endsLine (str "\n") (str "  ") indent false (x.tokens 0) := by
  have hnil : startsText [] = false := rfl
  constructor
  · have h := lay_tokens [] [] [] 0 hnil x
    rw [List.append_nil, lay_flat, lay_flat, List.flatMap_nil, List.append_nil] at h
    rw [h, ppFlat_eq_render]
    rfl
  · have h := lay_tokens (str "\n") (str "  ") indent 0 hnil x
    rw [List.append_nil] at h
    rw [h, pp_eq_render]
    simp [margin, lay]

/-- A comment ends its line although it has no tag. -/
theorem comment_ends_line :
    (XMLNode.mk [] (str "x") .comment [] []).pp [] = str "<!--x-->\n" ∧
      lay Token.isTag (str "\n") (str "  ") [] false
        ((XMLNode.mk [] (str "x") .comment [] []).tokens 0) = str "<!--x-->" := by
  decide

end XMLNode

end Peter
