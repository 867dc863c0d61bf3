import Mathlib.Data.List.Basic
import Mathlib.Algebra.Group.Nat.Even
import Mathlib.Tactic.Common

/-!
# Words with quotes

The words of a text are its maximal runs without a separator outside quotes, where every quote
switches between inside and outside and stays part of its word.  A splitter that skips the
separators and then scans one word (`scan`) finds them in order (`words_skip`, `words_scan`).
-/

namespace Quoted

variable {α : Type*} (sep quote : α → Bool)

/-- Whether the place after a text is inside quotes, when the place before it is (`q`) or not. -/
def inside : Bool → List α → Bool
  | q, [] => q
  | q, a :: l => inside (q ^^ quote a) l

/-- The elements of a text, each with whether it stands inside quotes. -/
def marked : Bool → List α → List (α × Bool)
  | _, [] => []
  | q, a :: l => (a, q) :: marked (q ^^ quote a) l

/-- The non-empty pieces between the separators outside quotes. -/
def words (l : List α) : List (List α) :=
  (((marked quote false l).splitOnP fun x => sep x.1 && !x.2).map (List.map Prod.fst)).filter
    (!·.isEmpty)

/-- The text up to the first separator outside quotes and what is left of it; `none` when it ends
inside quotes. -/
def scan : Bool → List α → Option (List α × List α)
  | q, [] => if q then none else some ([], [])
  | q, a :: l =>
    if !q && sep a then some ([], a :: l)
    else (scan (q ^^ quote a) l).map fun x => (a :: x.1, x.2)

/-- A text without a separator outside quotes that ends outside quotes. -/
def IsWord : Bool → List α → Prop
  | q, [] => q = false
  | q, a :: l => (q = true ∨ sep a = false) ∧ IsWord (q ^^ quote a) l

/-- A text that is empty or begins with a separator. -/
def AtSep (l : List α) : Prop := ∀ a ∈ l.head?, sep a = true

variable {sep quote}

theorem inside_append (q : Bool) (l l' : List α) :
    inside quote q (l ++ l') = inside quote (inside quote q l) l' := by
  induction l generalizing q with
  | nil => rfl
  | cons a l ih => exact ih _

theorem inside_eq_xor (q : Bool) (l : List α) :
    inside quote q l = (q ^^ inside quote false l) := by
  induction l generalizing q with
  | nil => simp [inside]
  | cons a l ih =>
    rw [inside, ih, inside, ih (false ^^ quote a)]
    simp

/-- A text ends outside quotes when it has an even number of them. -/
theorem inside_eq_false_iff (l : List α) :
    inside quote false l = false ↔ Even (l.countP quote) := by
  induction l with
  | nil => simp [inside]
  | cons a l ih =>
    rw [inside, inside_eq_xor, List.countP_cons]
    cases ha : quote a
    · simpa [ha] using ih
    · simp only [Bool.false_xor, Bool.true_xor, Bool.not_eq_false', if_pos, Nat.even_add_one]
      rw [← ih, Bool.not_eq_false]

/-- What the scan of a word leaves. -/
theorem scan_eq_some {q : Bool} {l w r : List α} (h : scan sep quote q l = some (w, r)) :
    l = w ++ r ∧ IsWord sep quote q w ∧ AtSep sep r := by
  induction l generalizing q w with
  | nil =>
    cases q with
    | true => cases h
    | false =>
      cases h
      exact ⟨rfl, rfl, fun a ha => by cases ha⟩
  | cons a l ih =>
    rw [scan] at h
    by_cases hs : (!q && sep a) = true
    · rw [if_pos hs] at h
      cases h
      rw [Bool.and_eq_true, Bool.not_eq_true'] at hs
      exact ⟨rfl, hs.1, fun b hb => by cases hb; exact hs.2⟩
    · rw [if_neg hs, Option.map_eq_some_iff] at h
      obtain ⟨⟨w', r'⟩, hscan, hw⟩ := h
      cases hw
      obtain ⟨rfl, hword, hat⟩ := ih hscan
      refine ⟨rfl, ⟨?_, hword⟩, hat⟩
      rw [Bool.and_eq_true, Bool.not_eq_true', not_and, Bool.not_eq_true] at hs
      cases q with
      | true => exact Or.inl rfl
      | false => exact Or.inr (hs rfl)

theorem scan_eq_none {q : Bool} {l : List α} (h : scan sep quote q l = none) :
    inside quote q l = true := by
  induction l generalizing q with
  | nil =>
    cases q with
    | true => rfl
    | false => cases h
  | cons a l ih =>
    rw [scan] at h
    by_cases hs : (!q && sep a) = true
    · rw [if_pos hs] at h
      cases h
    · rw [if_neg hs, Option.map_eq_none_iff] at h
      exact ih h

theorem IsWord.inside_eq {q : Bool} {w : List α} (h : IsWord sep quote q w) :
    inside quote q w = false := by
  induction w generalizing q with
  | nil => exact h
  | cons a w ih => exact ih h.2

/-- The last element of a word is no separator. -/
theorem IsWord.getLast? (hq : ∀ a, sep a = true → quote a = false) {q : Bool} {w : List α}
    (h : IsWord sep quote q w) : ∀ a ∈ w.getLast?, sep a = false := by
  induction w generalizing q with
  | nil => exact fun a ha => by cases ha
  | cons b w ih =>
    intro a ha
    rcases w with _ | ⟨c, w⟩
    · cases ha
      rcases h.1 with rfl | hb
      · have hquote : quote b = true := by simpa [IsWord] using h.2
        rw [Bool.eq_false_iff]
        intro hsep
        rw [hq b hsep] at hquote
        cases hquote
      · exact hb
    · exact ih h.2 a ha

@[simp] theorem words_nil : words sep quote ([] : List α) = [] := rfl

/-- Separators before a word do not count. -/
theorem words_skip (hq : ∀ a, sep a = true → quote a = false) {b : List α}
    (hb : ∀ a ∈ b, sep a = true) (l : List α) :
    words sep quote (b ++ l) = words sep quote l := by
  induction b with
  | nil => rfl
  | cons a b ih =>
    rw [← ih fun c hc => hb c (List.mem_cons_of_mem a hc)]
    have ha : sep a = true := hb a List.mem_cons_self
    simp [words, marked, List.splitOnP_cons_eq_if_modifyHead, ha, hq a ha]

theorem marked_append (q : Bool) (l l' : List α) :
    marked quote q (l ++ l') = marked quote q l ++ marked quote (inside quote q l) l' := by
  induction l generalizing q with
  | nil => rfl
  | cons a l ih => exact congrArg ((a, q) :: ·) (ih _)

@[simp] theorem map_fst_marked (q : Bool) (l : List α) :
    (marked quote q l).map Prod.fst = l := by
  induction l generalizing q with
  | nil => rfl
  | cons a l ih => exact congrArg (a :: ·) (ih _)

theorem IsWord.not_sep {q : Bool} {w : List α} (h : IsWord sep quote q w) :
    ∀ x ∈ marked quote q w, (sep x.1 && !x.2) = false := by
  induction w generalizing q with
  | nil => exact fun x hx => by cases hx
  | cons a w ih =>
    intro x hx
    rcases List.mem_cons.mp hx with rfl | hx
    · rcases h.1 with rfl | ha
      · simp
      · simp [ha]
    · exact ih h.2 x hx

/-- A word at the front of a text is the first of its words. -/
theorem words_word {w r : List α} (hw : IsWord sep quote false w) (hne : w ≠ [])
    (hr : AtSep sep r) : words sep quote (w ++ r) = w :: words sep quote r := by
  have hm := hw.not_sep
  unfold words
  rw [marked_append, hw.inside_eq]
  rcases r with _ | ⟨a, r⟩
  · rw [marked, List.append_nil, List.splitOnP_eq_singleton hm]
    simp [hne]
  · have ha : sep a = true := hr a rfl
    rw [marked, List.splitOnP_append_cons_of_forall_mem hm (a, false) (by simp [ha])]
    simp [hne, List.splitOnP_cons_eq_if_modifyHead, ha]

end Quoted
