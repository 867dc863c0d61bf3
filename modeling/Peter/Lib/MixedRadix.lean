import Mathlib.Algebra.Order.Ring.Nat
import Mathlib.Data.List.Chain

/-!
# Mixed radix

A number is divided by one weight after the other, each time the remainder of the division before.
`groups` are the quotients that are not zero with their units and `rest` is the last remainder.
-/

namespace MixedRadix

variable {U : Type*} {weight limit : U → ℕ} {us vs : List U} {u : U} {t : ℕ}

/-- The quotients that are not zero. -/
def groups (weight : U → ℕ) : List U → ℕ → List (ℕ × U)
  | [], _ => []
  | u :: us, t =>
    if t / weight u = 0 then groups weight us t
    else (t / weight u, u) :: groups weight us (t % weight u)

/-- What the divisions leave. -/
def rest (weight : U → ℕ) : List U → ℕ → ℕ
  | [], t => t
  | u :: us, t => rest weight us (t % weight u)

/-- The number that groups stand for. -/
def value (weight : U → ℕ) (gs : List (ℕ × U)) : ℕ := (gs.map fun g => g.1 * weight g.2).sum

theorem mod_of_div_eq_zero {n : ℕ} (h : t / n = 0) : t % n = t := by
  have hdiv := Nat.div_add_mod t n
  rw [h] at hdiv
  omega

theorem groups_append (us vs : List U) (t : ℕ) :
    groups weight (us ++ vs) t = groups weight us t ++ groups weight vs (rest weight us t) := by
  induction us generalizing t with
  | nil => rfl
  | cons u us ih =>
    rw [List.cons_append, groups, groups, rest]
    split_ifs with h
    · rw [ih, mod_of_div_eq_zero h]
    · rw [ih, List.cons_append]

theorem groups_singleton (h : weight u = 1) (t : ℕ) :
    groups weight [u] t = if t = 0 then [] else [(t, u)] := by
  rw [groups, groups, groups, h, Nat.div_one]

theorem rest_append (us vs : List U) (t : ℕ) :
    rest weight (us ++ vs) t = rest weight vs (rest weight us t) := by
  induction us generalizing t with
  | nil => rfl
  | cons u us ih => exact ih (t % weight u)

/-- Nothing is lost. -/
theorem value_groups_add_rest (us : List U) (t : ℕ) :
    value weight (groups weight us t) + rest weight us t = t := by
  induction us generalizing t with
  | nil => exact Nat.zero_add t
  | cons u us ih =>
    rw [groups, rest]
    split_ifs with h
    · rw [mod_of_div_eq_zero h]
      exact ih t
    · have hrest := ih (t % weight u)
      have hdiv := Nat.div_add_mod' t (weight u)
      unfold value at hrest ⊢
      rw [List.map_cons, List.sum_cons]
      dsimp only
      omega

/-- Where the last weight is one, nothing is left either. -/
theorem value_groups (h : weight u = 1) (us : List U) (t : ℕ) :
    value weight (groups weight (us ++ [u]) t) = t := by
  have hrest : rest weight (us ++ [u]) t = 0 := by rw [rest_append, rest, rest, h, Nat.mod_one]
  rw [← Nat.add_zero (value weight _), ← hrest]
  exact value_groups_add_rest (us ++ [u]) t

theorem groups_sublist (us : List U) (t : ℕ) :
    ((groups weight us t).map Prod.snd).Sublist us := by
  induction us generalizing t with
  | nil => exact List.Sublist.slnil
  | cons u us ih =>
    rw [groups]
    split_ifs with h
    · exact (ih t).cons u
    · exact (ih _).cons_cons u

/-- Where the numbers of a unit below its limit fill at most the unit before, every quotient is
below its limit. -/
theorem lt_limit (hchain : (u :: us).IsChain fun v w => weight v ≤ limit w * weight w)
    (ht : t < limit u * weight u) {g : ℕ × U} (hg : g ∈ groups weight (u :: us) t) :
    g.1 < limit g.2 := by
  induction us generalizing u t with
  | nil =>
    rw [groups] at hg
    split_ifs at hg with h
    · cases hg
    · rw [groups, List.mem_singleton] at hg
      rw [hg]
      exact Nat.div_lt_of_lt_mul (by rwa [Nat.mul_comm])
  | cons v us ih =>
    obtain ⟨hle, hchain⟩ := List.isChain_cons_cons.mp hchain
    have hpos : 0 < weight u := Nat.pos_of_ne_zero fun h => by rw [h] at ht; omega
    rw [groups] at hg
    split_ifs at hg with h
    · have hlt := Nat.lt_of_div_eq_zero hpos h
      exact ih hchain (by omega) hg
    · rcases List.mem_cons.mp hg with rfl | hg
      · exact Nat.div_lt_of_lt_mul (by rwa [Nat.mul_comm])
      · exact ih hchain ((Nat.mod_lt t hpos).trans_le hle) hg

end MixedRadix
