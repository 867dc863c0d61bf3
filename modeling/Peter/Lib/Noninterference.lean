import Mathlib.Tactic.Common

/-!
# Operations confined to a part of the state

A state has a part `low` that an observer sees and a part `high` that it must not learn about or
change.  An operation is `Confined` if it leaves the high part as it was and its effect on the low
part depends on the low part alone; such operations compose, and two runs of one from states that
look the same look the same at the end.
-/

namespace Noninterference

variable {σ L H : Type*} (low : σ → L) (high : σ → H)

structure Confined (f : σ → σ) : Prop where
  high_eq : ∀ s, high (f s) = high s
  low_congr : ∀ s s', low s = low s' → low (f s) = low (f s')

variable {low high}

namespace Confined

theorem id : Confined low high fun s => s := ⟨fun _ => rfl, fun _ _ h => h⟩

theorem comp {f g : σ → σ} (hg : Confined low high g) (hf : Confined low high f) :
    Confined low high fun s => g (f s) where
  high_eq s := (hg.high_eq (f s)).trans (hf.high_eq s)
  low_congr s s' h := hg.low_congr (f s) (f s') (hf.low_congr s s' h)

/-- A branch on what the observer sees. -/
theorem ite {p : σ → Bool} {f g : σ → σ} (hp : ∀ s s', low s = low s' → p s = p s')
    (hf : Confined low high f) (hg : Confined low high g) :
    Confined low high fun s => if p s then f s else g s where
  high_eq s := by
    split_ifs
    · exact hf.high_eq s
    · exact hg.high_eq s
  low_congr s s' h := by
    rw [hp s s' h]
    split_ifs
    · exact hf.low_congr s s' h
    · exact hg.low_congr s s' h

end Confined

end Noninterference
