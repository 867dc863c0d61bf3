import Mathlib.Data.List.Infix

/-!
# Replacing pieces of a list

`Replaced sub other s r` says that `r` is `s` with pieces `sub` replaced by `other`, one after the
other, until what is left has no such piece.  What this does to the number of items of some kind is
known from the two pieces alone (`Replaced.countP_le`, `Replaced.countP_lt`), so that a replacement
that adds an item of a kind can not be undone by others that take none away.  A replacement changes
nothing exactly when there is nothing to replace, or the piece is replaced by itself
(`Replaced.eq_self_iff`).

`Scanned sub other s r` fixes which pieces are replaced: those a scan of `s` from left to right
finds, where it goes on behind each.  There is one such `r` (`Scanned.unique`), and it is one of the
former kind (`Scanned.replaced`).
-/

namespace Substitution

variable {α : Type*}

/-- `r` is `s` with `other` in the place of its pieces `sub`. -/
inductive Replaced (sub other : List α) : List α → List α → Prop
  | none {s : List α} (h : ¬sub <:+: s) : Replaced sub other s s
  | step {pre post r : List α} (h : Replaced sub other post r) :
      Replaced sub other (pre ++ sub ++ post) (pre ++ other ++ r)

namespace Replaced

variable {sub other s r : List α} {q : α → Bool}

theorem eq_self_of_not_infix (h : Replaced sub other s r) (hno : ¬sub <:+: s) : r = s := by
  cases h with
  | none => rfl
  | step => exact absurd ⟨_, _, rfl⟩ hno

/-- Replacing a piece by one with no fewer items of a kind takes none of them away. -/
theorem countP_le (h : Replaced sub other s r) (hq : sub.countP q ≤ other.countP q) :
    s.countP q ≤ r.countP q := by
  induction h with
  | none => exact Nat.le_refl _
  | step _ ih =>
    simp only [List.countP_append]
    omega

/-- Replacing a piece by one with more items of a kind adds some of them. -/
theorem countP_lt (h : Replaced sub other s r) (hin : sub <:+: s)
    (hq : sub.countP q < other.countP q) : s.countP q < r.countP q := by
  cases h with
  | none hno => exact absurd hin hno
  | step h =>
    have := h.countP_le hq.le
    simp only [List.countP_append]
    omega

theorem length_le (h : Replaced sub other s r) (hlen : other.length ≤ sub.length) :
    r.length ≤ s.length := by
  induction h with
  | none => exact Nat.le_refl _
  | step _ ih =>
    simp only [List.length_append]
    omega

/-- Replacing a piece by a shorter one shortens the list. -/
theorem length_lt (h : Replaced sub other s r) (hin : sub <:+: s)
    (hlen : other.length < sub.length) : r.length < s.length := by
  cases h with
  | none hno => exact absurd hin hno
  | step h =>
    have := h.length_le hlen.le
    simp only [List.length_append]
    omega

theorem self (h : Replaced sub sub s r) : r = s := by
  induction h with
  | none => rfl
  | step _ ih => rw [ih]

/-- A replacement leaves the list as it was when there is no piece to replace, or each is replaced
by itself. -/
theorem eq_self_iff (h : Replaced sub other s r) : r = s ↔ ¬sub <:+: s ∨ other = sub := by
  constructor
  · intro hrs
    by_cases hin : sub <:+: s
    case neg => exact .inl hin
    right
    have hcount := fun hq => h.countP_lt (q := fun _ => true) hin hq
    have hshort := h.length_lt hin
    simp only [List.countP_true] at hcount
    have hlen : other.length = sub.length := by
      have := congrArg List.length hrs
      omega
    cases h with
    | none hno => exact absurd hin hno
    | step =>
      simp only [List.append_assoc] at hrs
      exact (List.append_inj (List.append_cancel_left hrs) hlen).1
  · rintro (hno | rfl)
    · exact h.eq_self_of_not_infix hno
    · exact h.self

end Replaced

/-! ## From left to right -/

/-- A scan of `s` from left to right, which puts `other` where it finds `sub` and goes on behind
it, has made `r`. -/
inductive Scanned (sub other : List α) : List α → List α → Prop
  | nil : Scanned sub other [] []
  | hit {s r : List α} (h : Scanned sub other s r) : Scanned sub other (sub ++ s) (other ++ r)
  | skip {a : α} {s r : List α} (hno : ¬sub <+: a :: s) (h : Scanned sub other s r) :
      Scanned sub other (a :: s) (a :: r)

namespace Scanned

variable {sub other s r r' : List α}

theorem unique (hsub : sub ≠ []) (h : Scanned sub other s r) (h' : Scanned sub other s r') :
    r' = r := by
  induction h generalizing r' with
  | nil =>
    generalize hs : ([] : List α) = s at h'
    cases h' with
    | nil => rfl
    | hit => exact absurd (List.append_eq_nil_iff.1 hs.symm).1 hsub
    | skip => cases hs
  | @hit s r h ih =>
    generalize hs : sub ++ s = t at h'
    cases h' with
    | nil => exact absurd (List.append_eq_nil_iff.1 hs).1 hsub
    | hit h' =>
      rw [List.append_cancel_left hs] at ih
      rw [ih h']
    | skip hno => exact absurd ⟨s, hs⟩ hno
  | @skip a s r hno h ih =>
    generalize hs : a :: s = t at h'
    cases h' with
    | nil => cases hs
    | hit h' => exact absurd ⟨_, hs.symm⟩ hno
    | skip _ h' =>
      cases hs
      rw [ih h']

/-- Nothing is found where nothing is. -/
theorem of_absent (h : ¬sub <:+: s) : Scanned sub other s s := by
  induction s with
  | nil => exact .nil
  | cons a s ih =>
    rw [List.infix_cons_iff, not_or] at h
    exact .skip h.1 (ih h.2)

theorem replaced (hsub : sub ≠ []) (h : Scanned sub other s r) : Replaced sub other s r := by
  induction h with
  | nil => exact .none fun h => hsub (List.infix_nil.1 h)
  | @hit s r _ ih =>
    show Replaced sub other ([] ++ sub ++ s) ([] ++ other ++ r)
    exact .step ih
  | @skip a s r hno _ ih =>
    cases ih with
    | none hs => exact .none fun h => (List.infix_cons_iff.1 h).elim hno hs
    | @step pre post r ih =>
      show Replaced sub other ((a :: pre) ++ sub ++ post) ((a :: pre) ++ other ++ r)
      exact .step ih

end Scanned

end Substitution
