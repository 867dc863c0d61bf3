import Peter.Lib.Loops
import Peter.Lib.Substitution
import Peter.Util

/-!
# What `replacein` replaces

The loop of `replacein` searches on behind the text it has put in.  Its rounds (`replaceinRound`)
end, and the text is then the one a scan of the original from left to right makes
(`replacein_scanned`), whatever the replacement is.
-/

namespace Peter

open Substitution (Replaced Scanned)

/-! ## Finding a piece -/

theorem findIn_eq_none_iff {sub s : Str} : findIn sub s = none ↔ ¬sub <:+: s := by
  induction s with
  | nil => cases sub <;> simp [findIn]
  | cons c cs ih =>
    rw [findIn, List.infix_cons_iff, ← List.isPrefixOf_iff_prefix]
    by_cases h : sub.isPrefixOf (c :: cs) = true
    · simp [h]
    · rw [if_neg h, Option.map_eq_none_iff, ih]
      simp [h]

/-- `find` goes to the first occurrence, which is the first a scan finds. -/
theorem findIn_eq_some {sub s : Str} {n : ℕ} (h : findIn sub s = some n) :
    ∃ pre post, s = pre ++ sub ++ post ∧ pre.length = n ∧
      ∀ {other r}, Scanned sub other post r → Scanned sub other s (pre ++ other ++ r) := by
  induction s generalizing n with
  | nil =>
    cases sub with
    | nil => exact ⟨[], [], rfl, by simpa [findIn] using h, fun h => .hit h⟩
    | cons a sub => simp [findIn] at h
  | cons c cs ih =>
    rw [findIn] at h
    by_cases hpre : sub.isPrefixOf (c :: cs) = true
    · rw [if_pos hpre] at h
      cases h
      obtain ⟨post, hpost⟩ := List.isPrefixOf_iff_prefix.1 hpre
      refine ⟨[], post, by simp [hpost], rfl, fun h => ?_⟩
      rw [← hpost]
      exact .hit h
    · rw [if_neg hpre] at h
      obtain ⟨m, hm, rfl⟩ := Option.map_eq_some_iff.1 h
      obtain ⟨pre, post, hcs, rfl, hscan⟩ := ih hm
      rw [List.isPrefixOf_iff_prefix] at hpre
      refine ⟨c :: pre, post, by simp [hcs], rfl, fun h => ?_⟩
      exact .skip hpre (hscan h)

/-! ## The loop -/

/-- One round of the loop of `replacein` on the text and the position. -/
def replaceinRound (sub other : Str) (x : Str × ℕ) : Except Empty (Option (Str × ℕ)) :=
  match find x.1 sub x.2 with
  | none => .ok none
  | some b => .ok (some (replace x.1 b sub.length other, b + other.length))

/-- The text up to the position is what a scan of the original makes of the part before what is
left. -/
structure Replacing (sub other s : Str) (x : Str × ℕ) : Prop where
  le : x.2 ≤ x.1.length
  scanned : ∀ r, Scanned sub other (x.1.drop x.2) r → Scanned sub other s (x.1.take x.2 ++ r)

section Loop

variable {sub other s : Str} {x : Str × ℕ}

theorem replaceinLoop_of_run {fuel : ℕ} {s' : Str} {b b' : ℕ}
    (h : Loops.run (replaceinRound sub other) fuel (s, b) = some (.ok (s', b'))) :
    replaceinLoop sub other fuel s b = s' := by
  induction fuel generalizing s b with
  | zero => cases h
  | succ fuel ih =>
    rw [replaceinLoop]
    rw [Loops.run, replaceinRound] at h
    dsimp only at h
    cases hfind : find s sub b with
    | none =>
      rw [hfind] at h
      cases h
      rfl
    | some n =>
      rw [hfind] at h
      exact ih h

theorem replace_append (a sub post other : Str) :
    replace (a ++ sub ++ post) a.length sub.length other = a ++ other ++ post := by
  rw [replace, List.append_assoc a sub post, List.take_left, ← List.append_assoc a sub post,
    ← List.length_append, List.drop_left]

/-- A round that finds the piece leaves less text behind the position. -/
theorem Replacing.round (hsub : sub ≠ []) (hx : Replacing sub other s x) :
    replaceinRound sub other x = .ok none ∨
      ∃ x', replaceinRound sub other x = .ok (some x') ∧ Replacing sub other s x' ∧
        x'.1.length - x'.2 < x.1.length - x.2 := by
  obtain ⟨t, b⟩ := x
  have hle : b ≤ t.length := hx.le
  unfold replaceinRound
  dsimp only
  rw [find, if_pos hle]
  cases hfind : findIn sub (t.drop b) with
  | none => exact Or.inl rfl
  | some n =>
    obtain ⟨pre, post, hdrop, rfl, hscan⟩ := findIn_eq_some hfind
    have hpos : 0 < sub.length := List.length_pos_iff.2 hsub
    have hlen : (t.take b ++ pre).length = pre.length + b := by
      rw [List.length_append, List.length_take_of_le hle, Nat.add_comm]
    have ht : t = t.take b ++ pre ++ sub ++ post := by
      rw [List.append_assoc, List.append_assoc, ← List.append_assoc pre, ← hdrop,
        List.take_append_drop]
    have hreplace : replace t (pre.length + b) sub.length other =
        t.take b ++ pre ++ other ++ post := by
      conv_lhs => rw [ht, ← hlen]
      exact replace_append (t.take b ++ pre) sub post other
    have hend : (t.take b ++ pre ++ other).length = pre.length + b + other.length := by
      rw [List.length_append, hlen]
    have hshort := congrArg List.length ht
    simp only [List.length_append, List.length_take_of_le hle] at hshort
    rw [Option.map_some]
    dsimp only
    rw [hreplace]
    refine Or.inr ⟨_, rfl, ⟨?_, ?_⟩, ?_⟩
    · simp only [List.length_append, List.length_take_of_le hle]
      omega
    · intro r hr
      simp only at hr ⊢
      rw [← hend, List.drop_left] at hr
      rw [← hend, List.take_left]
      have h := hx.scanned _ (by rw [hdrop] at hscan ⊢; exact hscan hr)
      simpa using h
    · simp only [List.length_append, List.length_take_of_le hle]
      omega

end Loop

theorem exists_replacein_run (s : Str) {sub : Str} (hsub : sub ≠ []) (other : Str) :
    (∃ b, Loops.Ends (replaceinRound sub other) (s, 0) (.ok (replacein s sub other, b))) ∧
      Scanned sub other s (replacein s sub other) := by
  have hstart : Replacing sub other s (s, 0) := ⟨Nat.zero_le _, fun r hr => hr⟩
  obtain ⟨⟨s', b⟩, hrun, hs', hleave⟩ :=
    Loops.exists_run_eq (μ := fun x => x.1.length - x.2) (fun x hx => hx.round hsub) hstart
  have heq : replacein s sub other = s' := replaceinLoop_of_run hrun
  -- the loop was left because there is nothing to find any more
  have hnone : ¬sub <:+: s'.drop b := by
    rw [← findIn_eq_none_iff]
    unfold replaceinRound at hleave
    dsimp only at hleave
    rw [find, if_pos hs'.le] at hleave
    cases hfind : findIn sub (s'.drop b) with
    | none => rfl
    | some n =>
      rw [hfind] at hleave
      cases hleave
  have hscan : Scanned sub other s s' := by
    have h := hs'.scanned _ (.of_absent hnone)
    rwa [List.take_append_drop] at h
  rw [heq]
  exact ⟨⟨b, _, hrun⟩, hscan⟩

theorem replacein_replaced (s : Str) {sub : Str} (hsub : sub ≠ []) (other : Str) :
    Replaced sub other s (replacein s sub other) :=
  (exists_replacein_run s hsub other).2.replaced hsub

/-- The loop of `replacein` ends, for every text, pattern that is not empty and replacement, and has
then made the one text that a scan of the original from left to right makes. -/
theorem replacein_scanned (s : Str) {sub : Str} (hsub : sub ≠ []) (other : Str) :
    (∃ b, Loops.Ends (replaceinRound sub other) (s, 0) (.ok (replacein s sub other, b))) ∧
      ∀ r, Scanned sub other s r ↔ r = replacein s sub other := by
  obtain ⟨hends, hscan⟩ := exists_replacein_run s hsub other
  refine ⟨hends, fun r => ⟨fun h => hscan.unique hsub h, ?_⟩⟩
  rintro rfl
  exact hscan

/-- A replacement that contains the pattern, which overlaps with itself in the text. -/
theorem replacein_scanned_overlap :
    replacein (str "ababa aba") (str "aba") (str "<aba>") = str "<aba>ba <aba>" ∧
    (∃ b, Loops.Ends (replaceinRound (str "aba") (str "<aba>")) (str "ababa aba", 0)
      (.ok (replacein (str "ababa aba") (str "aba") (str "<aba>"), b))) ∧
    ∀ r, Scanned (str "aba") (str "<aba>") (str "ababa aba") r ↔
      r = replacein (str "ababa aba") (str "aba") (str "<aba>") :=
  ⟨by decide, replacein_scanned (str "ababa aba") (by decide) (str "<aba>")⟩

end Peter
