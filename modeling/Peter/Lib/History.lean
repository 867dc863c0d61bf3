import Mathlib.Data.List.Basic
import Mathlib.Tactic.Common

/-!
# Histories

A state that keeps a history of events.  `Adds F s s'` says that between two states exactly the
events of `F` were recorded, `AddsOnly F s s'` that no others were.  The rules compose them over
sequences and loops: the events of a loop are those of its rounds (`Adds.foldl`), where an
invariant of the rounds may be used to tell which events a round records.
-/

namespace History

variable {σ α β : Type*} (log : σ → List α)

/-- From `s` to `s'` exactly the events of `F` are recorded. -/
def Adds (F : α → Prop) (s s' : σ) : Prop :=
  ∃ new, log s' = log s ++ new ∧ ∀ a, a ∈ new ↔ F a

/-- From `s` to `s'` only events of `F` are recorded. -/
def AddsOnly (F : α → Prop) (s s' : σ) : Prop :=
  ∃ new, log s' = log s ++ new ∧ ∀ a ∈ new, F a

variable {log}

namespace Adds

variable {F G : α → Prop} {s s' s'' : σ}

theorem congr (h : Adds log F s s') (hFG : ∀ a, F a ↔ G a) : Adds log G s s' := by
  obtain ⟨new, hnew, hF⟩ := h
  exact ⟨new, hnew, fun a => (hF a).trans (hFG a)⟩

theorem of_eq (h : log s' = log s) : Adds log (fun _ => False) s s' :=
  ⟨[], by simp [h], by simp⟩

theorem singleton {a : α} (h : log s' = log s ++ [a]) : Adds log (fun b => b = a) s s' :=
  ⟨[a], h, by simp⟩

theorem trans (h : Adds log F s s') (h' : Adds log G s' s'') :
    Adds log (fun a => F a ∨ G a) s s'' := by
  obtain ⟨new, hnew, hF⟩ := h
  obtain ⟨new', hnew', hG⟩ := h'
  refine ⟨new ++ new', by rw [hnew', hnew, List.append_assoc], fun a => ?_⟩
  rw [List.mem_append, hF, hG]

/-- The events of a loop over `l` whose rounds keep `I`: those of its rounds. -/
theorem foldl {f : σ → β → σ} {F : β → α → Prop} {I : σ → Prop} {l : List β}
    (hI : ∀ s b, b ∈ l → I s → I (f s b))
    (hF : ∀ s b, b ∈ l → I s → Adds log (F b) s (f s b)) (hs : I s) :
    Adds log (fun a => ∃ b ∈ l, F b a) s (l.foldl f s) := by
  induction l generalizing s with
  | nil => exact (of_eq rfl).congr (by simp)
  | cons b l ih =>
    have hb : b ∈ b :: l := List.mem_cons_self
    have hrest := ih (fun s c hc => hI s c (List.mem_cons_of_mem b hc))
      (fun s c hc => hF s c (List.mem_cons_of_mem b hc)) (hI s b hb hs)
    exact ((hF s b hb hs).trans hrest).congr (by simp)

theorem mem_iff (h : Adds log F s s') {a : α} : a ∈ log s' ↔ a ∈ log s ∨ F a := by
  obtain ⟨new, hnew, hF⟩ := h
  rw [hnew, List.mem_append, hF]

end Adds

namespace AddsOnly

variable {F G : α → Prop} {s s' s'' : σ}

theorem mono (h : AddsOnly log F s s') (hFG : ∀ a, F a → G a) : AddsOnly log G s s' := by
  obtain ⟨new, hnew, hF⟩ := h
  exact ⟨new, hnew, fun a ha => hFG a (hF a ha)⟩

theorem of_eq (h : log s' = log s) : AddsOnly log F s s' := ⟨[], by simp [h], by simp⟩

theorem singleton {a : α} (h : log s' = log s ++ [a]) (ha : F a) : AddsOnly log F s s' :=
  ⟨[a], h, by simpa using ha⟩

theorem trans (h : AddsOnly log F s s') (h' : AddsOnly log F s' s'') : AddsOnly log F s s'' := by
  obtain ⟨new, hnew, hF⟩ := h
  obtain ⟨new', hnew', hF'⟩ := h'
  refine ⟨new ++ new', by rw [hnew', hnew, List.append_assoc], fun a ha => ?_⟩
  rcases List.mem_append.1 ha with ha | ha
  · exact hF a ha
  · exact hF' a ha

/-- A loop whose rounds keep `I` records no others than its rounds do. -/
theorem foldl {f : σ → β → σ} {I : σ → Prop} {l : List β} (hI : ∀ s b, b ∈ l → I s → I (f s b))
    (hF : ∀ s b, b ∈ l → I s → AddsOnly log F s (f s b)) (hs : I s) :
    AddsOnly log F s (l.foldl f s) := by
  induction l generalizing s with
  | nil => exact of_eq rfl
  | cons b l ih =>
    have hb : b ∈ b :: l := List.mem_cons_self
    exact (hF s b hb hs).trans (ih (fun s c hc => hI s c (List.mem_cons_of_mem b hc))
      (fun s c hc => hF s c (List.mem_cons_of_mem b hc)) (hI s b hb hs))

/-- Nothing recorded is forgotten. -/
theorem mem (h : AddsOnly log F s s') {a : α} (ha : a ∈ log s) : a ∈ log s' := by
  obtain ⟨new, hnew, -⟩ := h
  rw [hnew]
  exact List.mem_append_left new ha

end AddsOnly

end History
