import Mathlib.Data.List.TakeWhile

/-!
# Texts that end at a delimiter

A text without delimiters is known from any text that goes on after it with one
(`append_inj_of_delimited`).
-/

namespace Delimited

variable {α : Type*}

/-- The text begins with an element of `P`. -/
def StartsWith (P : α → Prop) (l : List α) : Prop := ∃ a t, l = a :: t ∧ P a

/-- Texts that begin differently are different. -/
theorem StartsWith.ne {P Q : α → Prop} (hPQ : ∀ a, P a → ¬Q a) {l l' : List α}
    (h : StartsWith P l) (h' : StartsWith Q l') : l ≠ l' := by
  rintro rfl
  obtain ⟨a, t, rfl, ha⟩ := h
  obtain ⟨b, u, hb, hq⟩ := h'
  cases hb
  exact hPQ a ha hq

/-- Up to its first delimiter a text is unambiguous. -/
theorem append_inj_of_delimited {P : α → Prop} {l l' r r' : List α} (hl : ∀ a ∈ l, ¬P a)
    (hl' : ∀ a ∈ l', ¬P a) (hr : StartsWith P r) (hr' : StartsWith P r')
    (h : l ++ r = l' ++ r') : l = l' ∧ r = r' := by
  induction l generalizing l' with
  | nil =>
    rcases l' with _ | ⟨b, l'⟩
    · exact ⟨rfl, h⟩
    · refine absurd h (hr.ne (Q := fun a => ¬P a) (fun a ha hna => hna ha) ?_)
      exact ⟨b, l' ++ r', rfl, hl' b List.mem_cons_self⟩
  | cons a l ih =>
    rcases l' with _ | ⟨b, l'⟩
    · refine absurd h.symm (hr'.ne (Q := fun a => ¬P a) (fun a ha hna => hna ha) ?_)
      exact ⟨a, l ++ r, rfl, hl a List.mem_cons_self⟩
    · rw [List.cons_append, List.cons_append, List.cons.injEq] at h
      obtain ⟨rfl, h⟩ := h
      obtain ⟨rfl, hrest⟩ := ih (fun c hc => hl c (List.mem_cons_of_mem _ hc))
        (fun c hc => hl' c (List.mem_cons_of_mem _ hc)) h
      exact ⟨rfl, hrest⟩

end Delimited
