import Peter.Lib.MixedRadix
import Peter.Values

/-!
# Durations

`secs_to_str` divides by the seconds of a week, a day, an hour and a minute, one after the other,
and prints the quotients that are not zero and the seconds that are left.  Up to the largest `int`
of weeks the text has one reading (`secsToStr_faithful`).
-/

namespace Peter

/-- The units of a duration, by the letters that are printed. -/
inductive TimeUnit
  | w
  | d
  | h
  | m
  | s
  deriving DecidableEq, Repr

namespace TimeUnit

/-- The seconds of a unit, `div` of `secs_to_str`. -/
def div : TimeUnit → ℕ
  | w => 604800
  | d => 86400
  | h => 3600
  | m => 60
  | s => 1

/-- The letter of a unit, `ind` of `secs_to_str`. -/
def ind : TimeUnit → UInt8
  | w => 119
  | d => 100
  | h => 104
  | m => 109
  | s => 115

/-- What a number of this unit stays below. -/
def limit : TimeUnit → ℕ
  | w => 2147483647
  | d => 7
  | h => 24
  | m => 60
  | s => 60

/-- The unit of a letter. -/
def ofInd (c : UInt8) : Option TimeUnit := [w, d, h, m, s].find? fun u => u.ind == c

theorem ofInd_ind (u : TimeUnit) : ofInd u.ind = some u := by cases u <;> rfl

theorem not_isDigit_ind (u : TimeUnit) : ¬IsDigit u.ind := by cases u <;> decide

end TimeUnit

open TimeUnit MixedRadix

/-- A number and the letter of its unit, as `secs_to_str` prints them. -/
def groupText (g : ℕ × TimeUnit) : Str := toStrPad g.1 2 (UInt8.ofNat 48) ++ [g.2.ind]

/-! ## The groups of a duration -/

theorem secsToStrLoop_eq {us : List TimeUnit} {t : ℕ}
    (ht : ∀ g ∈ groups div us t, g.1 < 2147483648) (res : Str) :
    secsToStrLoop (us.map fun u => ((u.div : ℤ), [u.ind])) t res =
      (((rest div us t : ℕ) : ℤ), res ++ (groups div us t).flatMap groupText) := by
  induction us generalizing t res with
  | nil => rw [groups, List.flatMap_nil, List.append_nil, rest, List.map_nil, secsToStrLoop]
  | cons u us ih =>
    rw [groups] at ht
    rw [List.map_cons, secsToStrLoop, groups, rest]
    rw [← Int.ofNat_tdiv]
    by_cases hzero : t / u.div = 0
    · rw [if_pos hzero] at ht
      rw [hzero, if_pos rfl, mod_of_div_eq_zero hzero, ← ih ht]
      rfl
    · rw [if_neg hzero] at ht
      obtain ⟨hu, hus⟩ := List.forall_mem_cons.mp ht
      have hrest : (t : ℤ) - ((t / u.div : ℕ) : ℤ) * (u.div : ℤ) = (t % u.div : ℕ) := by
        have hdiv := congrArg (Nat.cast (R := ℤ)) (Nat.div_add_mod' t u.div)
        rw [Nat.cast_add, Nat.cast_mul] at hdiv
        omega
      have hpos : ((t / u.div : ℕ) : ℤ) > 0 := Int.natCast_pos.mpr (Nat.pos_of_ne_zero hzero)
      rw [toInt_natCast hu, if_pos hpos, if_neg hzero, hrest, ih hus, List.flatMap_cons, groupText]
      simp only [List.append_assoc]

/-- The groups of a duration; no time at all is no seconds. -/
def durationGroups (t : ℕ) : List (ℕ × TimeUnit) :=
  if t = 0 then [(0, s)] else groups div [w, d, h, m, s] t

theorem durationGroups_sublist (t : ℕ) :
    ((durationGroups t).map Prod.snd).Sublist [w, d, h, m, s] := by
  unfold durationGroups
  split_ifs
  · decide
  · exact groups_sublist _ t

theorem durationGroups_lt {t : ℕ} (ht : t < w.limit * w.div) {g : ℕ × TimeUnit}
    (hg : g ∈ durationGroups t) : g.1 < g.2.limit := by
  unfold durationGroups at hg
  split_ifs at hg
  · rw [List.mem_singleton.mp hg]
    decide
  · exact lt_limit (by decide) ht hg

theorem value_durationGroups (t : ℕ) : value div (durationGroups t) = t := by
  unfold durationGroups
  split_ifs with hzero
  · rw [hzero]
    rfl
  · have hsec : div s = 1 := rfl
    exact value_groups hsec [w, d, h, m] t

theorem secsToStr_eq {t : ℕ} (ht : t < w.limit * w.div) :
    secsToStr t = (durationGroups t).flatMap groupText := by
  by_cases hzero : t = 0
  · rw [hzero]
    rfl
  · have hgroups : durationGroups t =
        groups div [w, d, h, m] t ++ groups div [s] (rest div [w, d, h, m] t) := by
      rw [durationGroups, if_neg hzero]
      exact groups_append [w, d, h, m] [s] t
    have hfit : ∀ g ∈ durationGroups t, g.1 < 2147483648 := by
      intro g hg
      have hlt := durationGroups_lt ht hg
      have hle : g.2.limit ≤ 2147483647 := by cases g.2 <;> decide
      omega
    rw [hgroups] at hfit ⊢
    obtain ⟨hloop, hlast⟩ := List.forall_mem_append.mp hfit
    have hloop := secsToStrLoop_eq hloop []
    have hsec : div s = 1 := rfl
    rw [secsToStr, if_neg (by omega)]
    have htable : ([(604800, str "w"), (86400, str "d"), (3600, str "h"), (60, str "m")] :
        List (ℤ × Str)) = [w, d, h, m].map fun u => ((u.div : ℤ), [u.ind]) := by decide
    rw [htable, hloop]
    dsimp only
    rw [List.flatMap_append, List.nil_append]
    rw [groups_singleton hsec] at hlast ⊢
    by_cases hsecs : rest div [w, d, h, m] t = 0
    · rw [if_neg (by omega), if_pos hsecs, List.flatMap_nil, List.append_nil]
    · rw [if_neg hsecs] at hlast ⊢
      rw [if_pos (by omega), toInt_natCast (hlast _ List.mem_cons_self), List.flatMap_cons,
        List.flatMap_nil, List.append_nil, groupText, List.append_assoc]
      rfl

/-! ## Reading a duration -/

/-- Reads numbers and letters on, with `n` read of a number and `total` seconds before it. -/
def secsOf (total n : ℤ) : Str → ℤ
  | [] => total
  | c :: text =>
    if IsDigit c then secsOf total (10 * n + (c.toNat - 48)) text
    else secsOf (total + n * ((ofInd c).map div).getD 0) 0 text

theorem secsOf_digits {text : Str} (htext : ∀ c ∈ text, IsDigit c) (total n : ℤ) (u : TimeUnit)
    (after : Str) : secsOf total n (text ++ u.ind :: after) =
      secsOf (total + digits n text * u.div) 0 after := by
  induction text generalizing n with
  | nil =>
    rw [List.nil_append, secsOf, if_neg u.not_isDigit_ind, ofInd_ind]
    rfl
  | cons c text ih =>
    obtain ⟨hc, htext⟩ := List.forall_mem_cons.mp htext
    have hbyte : 48 ≤ c.toNat ∧ c.toNat ≤ 57 := hc
    rw [List.cons_append, secsOf, if_pos hc, ih htext, digits, if_pos hbyte]

theorem isDigit_toStrPad (n : ℕ) : ∀ c ∈ toStrPad n 2 (UInt8.ofNat 48), IsDigit c := by
  intro c hc
  rw [toStrPad, toStr_natCast] at hc
  rcases List.mem_append.mp hc with hc | hc
  · rw [List.eq_of_mem_replicate hc]
    decide
  · obtain ⟨x, hx, rfl⟩ := List.mem_map.mp hc
    obtain ⟨hbyte, hdigit⟩ := toNat_ofNat_of_isDigit (isDigit_of_mem_toDigits hx)
    rw [IsDigit, hbyte]
    exact hdigit

theorem digits_toStrPad (n l : ℕ) : digits 0 (toStrPad n l (UInt8.ofNat 48)) = n := by
  have hpad : ∀ k, digits 0 (List.replicate k (UInt8.ofNat 48) ++ toStr n) = n := by
    intro k
    induction k with
    | zero =>
      have h := digits_toStr n (r := []) (fun _ h => by cases h)
      rwa [List.append_nil] at h
    | succ k ih =>
      rw [List.replicate_succ, List.cons_append, digits, if_pos (by decide)]
      exact ih
  exact hpad _

theorem secsOf_groups (gs : List (ℕ × TimeUnit)) (total : ℤ) :
    secsOf total 0 (gs.flatMap groupText) = total + value div gs := by
  induction gs generalizing total with
  | nil => exact (Int.add_zero total).symm
  | cons g gs ih =>
    rw [List.flatMap_cons, groupText, List.append_assoc, List.singleton_append,
      secsOf_digits (isDigit_toStrPad g.1), digits_toStrPad, ih, value, value, List.map_cons,
      List.sum_cons]
    push_cast
    omega

theorem secsOf_secsToStr {t : ℕ} (ht : t < w.limit * w.div) : secsOf 0 0 (secsToStr t) = t := by
  rw [secsToStr_eq ht, secsOf_groups, value_durationGroups, Int.zero_add]

/-- A duration up to the largest `int` of weeks is printed as numbers and letters, from weeks to
seconds, each number below what makes one of the unit before, that together are the duration, and
no other such duration has this text. -/
theorem secsToStr_faithful {t : ℤ} (h0 : 0 ≤ t) (ht : t < 604800 * 2147483647) :
    (∃ gs : List (ℕ × TimeUnit), secsToStr t = gs.flatMap groupText ∧
      (gs.map Prod.snd).Sublist [w, d, h, m, s] ∧ (∀ g ∈ gs, g.1 < g.2.limit) ∧
      ((gs.map fun g => g.1 * g.2.div).sum : ℕ) = t) ∧
    ∀ t', 0 ≤ t' → t' < 604800 * 2147483647 → secsToStr t' = secsToStr t → t' = t := by
  have hlimit : ((w.limit * w.div : ℕ) : ℤ) = 604800 * 2147483647 := by decide
  lift t to ℕ using h0
  have ht : t < w.limit * w.div := by omega
  refine ⟨⟨durationGroups t, secsToStr_eq ht, durationGroups_sublist t,
    fun g hg => durationGroups_lt ht hg, ?_⟩, ?_⟩
  · exact congrArg Nat.cast (value_durationGroups t)
  · intro t' h0' ht' heq
    lift t' to ℕ using h0'
    have hread := secsOf_secsToStr (t := t') (by omega)
    rw [heq, secsOf_secsToStr ht] at hread
    exact hread.symm

/-- A day and a second, where the hours and minutes are left out. -/
theorem secsToStr_faithful_day : secsToStr 86401 = str "01d01s" ∧
    (∃ gs : List (ℕ × TimeUnit), secsToStr 86401 = gs.flatMap groupText ∧
      (gs.map Prod.snd).Sublist [w, d, h, m, s] ∧ (∀ g ∈ gs, g.1 < g.2.limit) ∧
      ((gs.map fun g => g.1 * g.2.div).sum : ℕ) = (86401 : ℤ)) ∧
    ∀ t', 0 ≤ t' → t' < 604800 * 2147483647 → secsToStr t' = secsToStr 86401 → t' = 86401 :=
  ⟨by decide, secsToStr_faithful (by decide) (by decide)⟩

end Peter
