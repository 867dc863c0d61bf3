import Peter.Lib.Loops
import Peter.Values

/-!
# The positions of `Tokenize`

`Tokenize` keeps what `find` returns, a `size_t`, in an `int`.  `Splitting.round` is a round of its
loop with these conversions.  In a buffer of fewer than 2^31 characters they lose nothing, and the
loop ends with the pieces between the delimiters (`tokenize_splits`).
-/

namespace Peter

/-- `std::string::npos`. -/
def npos : ℕ := 18446744073709551615

/-- `s.find(d, b)` as a `size_t`. -/
def findSize (s : Str) (d : UInt8) (b : ℕ) : ℕ := (find s [d] b).getD npos

/-- The value of an `int` expression; an overflow is undefined. -/
def checkInt (i : ℤ) : Except ReadFault ℤ :=
  if -2147483648 ≤ i ∧ i ≤ 2147483647 then .ok i else .error .undefined

/-- `s.substr(pos, len)`, which throws when `pos` is behind the end. -/
def substrAt (s : Str) (pos len : ℕ) : Except ReadFault Str :=
  if pos ≤ s.length then .ok (substr s pos len) else .error .thrown

/-- The variables of `Tokenize`. -/
structure Splitting where
  pos : ℤ
  posAnt : ℤ
  tokens : List Str

namespace Splitting

/-- The state before the first round. -/
def start (buffer : Str) (tokens : List Str) (d : UInt8) : Splitting :=
  { pos := toInt (findSize buffer d 0), posAnt := 0, tokens }

/-- One round of the loop. -/
def round (buffer : Str) (d : UInt8) (st : Splitting) : Except ReadFault (Option Splitting) :=
  if toSize st.pos = npos then .ok none
  else do
    let len ← checkInt (st.pos - st.posAnt)
    let token ← substrAt buffer (toSize st.posAnt) (toSize len)
    let posAnt ← checkInt (st.pos + 1)
    return some {
      pos := toInt (findSize buffer d (toSize posAnt)), posAnt, tokens := st.tokens ++ [token] }

/-- What follows the loop. -/
def finish (buffer : Str) (st : Splitting) : Except ReadFault (List Str) :=
  if buffer.isEmpty then .ok st.tokens
  else do
    let token ← substrAt buffer (toSize st.posAnt) buffer.length
    return st.tokens ++ [token]

end Splitting

/-- `Tokenize` ends with these tokens, or with this fault. -/
def Tokenizes (buffer : Str) (tokens : List Str) (d : UInt8) (r : Except ReadFault (List Str)) :
    Prop :=
  ∃ st, Loops.Ends (Splitting.round buffer d) (.start buffer tokens d) st ∧
    r = st >>= Splitting.finish buffer

/-! ## Conversions that lose nothing -/

theorem toSize_toInt_npos : toSize (toInt npos) = npos := by decide

theorem checkInt_eq {i : ℤ} (h : -2147483648 ≤ i ∧ i ≤ 2147483647) : checkInt i = .ok i := if_pos h

theorem substrAt_eq {s : Str} {pos : ℕ} (h : pos ≤ s.length) (len : ℕ) :
    substrAt s pos len = .ok (substr s pos len) := if_pos h

namespace Splitting

variable {buffer : Str} {tokens : List Str} {d : UInt8} {st : Splitting}

/-- The pieces up to `posAnt` are stored, and the next delimiter is at `pos`. -/
structure Inv (buffer : Str) (tokens : List Str) (d : UInt8) (st : Splitting) : Prop where
  nonneg : 0 ≤ st.posAnt
  le : st.posAnt ≤ buffer.length
  pos : st.pos = toInt (findSize buffer d st.posAnt.toNat)
  tokens : ∃ done, st.tokens = tokens ++ done ∧
    done ++ (buffer.drop st.posAnt.toNat).splitOn d = buffer.splitOn d

theorem inv_start (buffer : Str) (tokens : List Str) (d : UInt8) :
    Inv buffer tokens d (.start buffer tokens d) := by
  unfold start
  refine ⟨le_rfl, Int.natCast_nonneg _, ?_, [], ?_, ?_⟩
  · rw [Int.toNat_zero]
  · rw [List.append_nil]
  · rw [Int.toNat_zero, List.drop_zero, List.nil_append]

/-- The position is `npos` exactly when no delimiter is left. -/
theorem Inv.pos_cases (h : Inv buffer tokens d st) (hsize : buffer.length < 2147483648) :
    ∃ a : ℕ, st.posAnt = a ∧ a ≤ buffer.length ∧
      (toSize st.pos = npos ∧ d ∉ buffer.drop a ∨
        ∃ u v, buffer.drop a = u ++ d :: v ∧ d ∉ u ∧ st.pos = (u.length + a : ℕ) ∧
          u.length + a < buffer.length ∧ substr buffer a u.length = u ∧
          buffer.drop (u.length + a + 1) = v) := by
  obtain ⟨a, ha⟩ := Int.eq_ofNat_of_zero_le h.nonneg
  have hpos := h.pos
  have hle : a ≤ buffer.length := by
    have := h.le
    omega
  rw [ha, Int.toNat_natCast] at hpos
  refine ⟨a, ha, hle, ?_⟩
  rcases find_delimiter d hle with ⟨hfind, hd⟩ | ⟨u, v, huv, hu, hfind, htok, hv⟩
  · have hnpos : findSize buffer d a = npos := by rw [findSize, hfind, Option.getD_none]
    rw [hpos, hnpos]
    exact Or.inl ⟨toSize_toInt_npos, hd⟩
  · have hlen := congrArg List.length huv
    rw [List.length_drop, List.length_append, List.length_cons] at hlen
    have hfound : findSize buffer d a = u.length + a := by rw [findSize, hfind, Option.getD_some]
    refine Or.inr ⟨u, v, huv, hu, ?_, by omega, htok, hv⟩
    rw [hpos, hfound]
    exact toInt_natCast (by omega)

theorem toSize_pos_ne_npos {n : ℕ} (hpos : st.pos = n) (hn : n < 2147483648) :
    toSize st.pos ≠ npos := by
  rw [hpos, toSize_natCast (by omega), npos]
  omega

theorem inv_round (hsize : buffer.length < 2147483648) (h : Inv buffer tokens d st) :
    round buffer d st = .ok none ∨ ∃ st', round buffer d st = .ok (some st') ∧
      Inv buffer tokens d st' ∧
      (buffer.length - st'.posAnt).toNat < (buffer.length - st.posAnt).toNat := by
  obtain ⟨a, ha, hle, ⟨hnpos, -⟩ | ⟨u, v, huv, hu, hpos, hlt, htok, hv⟩⟩ := h.pos_cases hsize
  · exact Or.inl (if_pos hnpos)
  · obtain ⟨done, htokens, hdone⟩ := h.tokens
    rw [ha, Int.toNat_natCast] at hdone
    have hsub : st.pos - st.posAnt = (u.length : ℕ) := by omega
    have hnext : st.pos + 1 = ((u.length + a + 1 : ℕ) : ℤ) := by omega
    have htoken : substrAt buffer (toSize st.posAnt) (toSize (u.length : ℕ)) = .ok u := by
      rw [ha, toSize_natCast (by omega), toSize_natCast (by omega), substrAt_eq hle, htok]
    have hsizeNext : toSize ((u.length + a + 1 : ℕ) : ℤ) = u.length + a + 1 :=
      toSize_natCast (by omega)
    refine Or.inr ⟨⟨toInt (findSize buffer d (u.length + a + 1)), (u.length + a + 1 : ℕ),
      st.tokens ++ [u]⟩, ?_, ?_, ?_⟩
    · rw [round, if_neg (toSize_pos_ne_npos hpos (by omega)), hsub, hnext,
        checkInt_eq (by omega), checkInt_eq (by omega)]
      simp only [bind, Except.bind, pure, Except.pure, htoken, hsizeNext]
    · refine ⟨Int.natCast_nonneg _, by dsimp only; omega, ?_, done ++ [u], ?_, ?_⟩
      · rw [Int.toNat_natCast]
      · rw [htokens, List.append_assoc]
      · rw [← hdone, huv, List.splitOn_append_cons_self_of_not_mem hu, Int.toNat_natCast, hv,
          List.append_assoc, List.singleton_append]
    · dsimp only
      omega

theorem toSize_pos_of_leave (h : round buffer d st = .ok none) : toSize st.pos = npos := by
  by_contra hne
  rw [round, if_neg hne] at h
  obtain ⟨len, -, h⟩ := bind_eq_ok h
  obtain ⟨token, -, h⟩ := bind_eq_ok h
  obtain ⟨posAnt, -, h⟩ := bind_eq_ok h
  cases h

/-- Where the loop is left, what is behind the last delimiter is the last piece. -/
theorem inv_finish (hsize : buffer.length < 2147483648) (h : Inv buffer tokens d st)
    (hleave : round buffer d st = .ok none) : finish buffer st =
      .ok (tokens ++ if buffer = [] then [] else buffer.splitOn d) := by
  have hnpos := toSize_pos_of_leave hleave
  obtain ⟨done, htokens, hdone⟩ := h.tokens
  obtain ⟨a, ha, hle, ⟨-, hd⟩ | ⟨u, v, -, -, hpos, hlt, -, -⟩⟩ := h.pos_cases hsize
  · rw [ha, Int.toNat_natCast, List.splitOn_eq_singleton hd] at hdone
    cases buffer with
    | nil =>
      have hempty : done = [] := by
        have hlen := congrArg List.length hdone
        rw [List.length_append, List.splitOn_nil, List.length_singleton, List.length_singleton]
          at hlen
        exact List.eq_nil_of_length_eq_zero (by omega)
      rw [finish, if_pos List.isEmpty_nil, if_pos rfl, htokens, hempty]
    | cons c buffer =>
      have htoken : substrAt (c :: buffer) (toSize st.posAnt) (c :: buffer).length =
          .ok ((c :: buffer).drop a) := by
        rw [ha, toSize_natCast (by omega), substrAt_eq hle, substr,
          List.take_of_length_le (by rw [List.length_drop]; omega)]
      rw [finish, if_neg (by simp), if_neg (by simp), htoken, ← hdone, ← List.append_assoc, ← htokens]
      rfl
  · exact absurd hnpos (toSize_pos_ne_npos hpos (by omega))

end Splitting

/-! ## The pieces -/

theorem splitOn_cons_of_ne {c d : UInt8} (hne : c ≠ d) (s : Str) :
    ∃ p ps, s.splitOn d = p :: ps ∧ (c :: s).splitOn d = (c :: p) :: ps := by
  obtain ⟨p, ps, hs⟩ := List.exists_cons_of_ne_nil (List.splitOn_ne_nil d s)
  refine ⟨p, ps, hs, ?_⟩
  rw [List.splitOn_cons_eq_if_modifyHead, if_neg (by simpa using hne), hs, List.modifyHead_cons]

theorem splitOn_cons_self (d : UInt8) (s : Str) : (d :: s).splitOn d = [] :: s.splitOn d := by
  rw [List.splitOn_cons_eq_if_modifyHead, if_pos (beq_self_eq_true d)]

theorem not_mem_of_mem_splitOn {d : UInt8} {s piece : Str} (h : piece ∈ s.splitOn d) :
    d ∉ piece := by
  induction s generalizing piece with
  | nil =>
    rw [List.splitOn_nil, List.mem_singleton] at h
    rw [h]
    exact List.not_mem_nil
  | cons c s ih =>
    by_cases hc : c = d
    · subst hc
      rw [splitOn_cons_self] at h
      rcases List.mem_cons.mp h with rfl | h
      · exact List.not_mem_nil
      · exact ih h
    · obtain ⟨p, ps, hs, hcons⟩ := splitOn_cons_of_ne hc s
      rw [hcons] at h
      rw [hs] at ih
      rcases List.mem_cons.mp h with rfl | h
      · intro hmem
        rcases List.mem_cons.mp hmem with heq | hmem
        · exact hc heq.symm
        · exact ih List.mem_cons_self hmem
      · exact ih (List.mem_cons_of_mem _ h)

theorem length_splitOn (d : UInt8) (s : Str) : (s.splitOn d).length = s.count d + 1 := by
  induction s with
  | nil => rfl
  | cons c s ih =>
    by_cases hc : c = d
    · subst hc
      rw [splitOn_cons_self, List.length_cons, ih, List.count_cons_self]
    · obtain ⟨p, ps, hs, hcons⟩ := splitOn_cons_of_ne hc s
      rw [hcons, List.count_cons_of_ne hc, ← ih, hs]
      rfl

theorem tokenizes_iff {buffer : Str} (hsize : buffer.length < 2147483648) (tokens : List Str)
    (d : UInt8) (r : Except ReadFault (List Str)) : Tokenizes buffer tokens d r ↔
      r = .ok (tokens ++ if buffer = [] then [] else buffer.splitOn d) := by
  obtain ⟨st, hrun, hinv, hleave⟩ :=
    Loops.exists_run_eq (μ := fun st : Splitting => (buffer.length - st.posAnt).toNat)
      (fun _ h => Splitting.inv_round hsize h) (Splitting.inv_start buffer tokens d)
  have hfinish := Splitting.inv_finish hsize hinv hleave
  constructor
  · rintro ⟨end', hend, rfl⟩
    rw [(Loops.ends_iff_of_run hrun).mp hend]
    exact hfinish
  · rintro rfl
    exact ⟨.ok st, ⟨_, hrun⟩, hfinish.symm⟩

/-- For every buffer of fewer than 2^31 characters `Tokenize` ends, and appends to the tokens the
pieces between the delimiters, which are one more than there are delimiters, or none for an empty
buffer. -/
theorem tokenize_splits {buffer : Str} (hsize : buffer.length < 2147483648) (tokens : List Str)
    (d : UInt8) : ∃ pieces, (∀ r, Tokenizes buffer tokens d r ↔ r = .ok (tokens ++ pieces)) ∧
      (∀ piece ∈ pieces, d ∉ piece) ∧ [d].intercalate pieces = buffer ∧
      pieces.length = if buffer = [] then 0 else buffer.count d + 1 := by
  refine ⟨if buffer = [] then [] else buffer.splitOn d, tokenizes_iff hsize tokens d, ?_⟩
  by_cases hempty : buffer = []
  · rw [if_pos hempty, if_pos hempty, hempty]
    exact ⟨fun _ h => absurd h List.not_mem_nil, rfl, rfl⟩
  · rw [if_neg hempty, if_neg hempty]
    exact ⟨fun _ h => not_mem_of_mem_splitOn h, List.intercalate_splitOn d, length_splitOn d buffer⟩

/-- Empty pieces at the start, between two delimiters and at the end. -/
theorem tokenize_splits_allow :
    Tokenizes (str ",a,,b,") [str "localhost"] 44
      (.ok (["localhost", "", "a", "", "b", ""].map str)) ∧
    ∃ pieces, (∀ r, Tokenizes (str ",a,,b,") [str "localhost"] 44 r ↔
        r = .ok ([str "localhost"] ++ pieces)) ∧
      (∀ piece ∈ pieces, (44 : UInt8) ∉ piece) ∧ [44].intercalate pieces = str ",a,,b," ∧
      pieces.length = if str ",a,,b," = [] then 0 else (str ",a,,b,").count 44 + 1 :=
  ⟨(tokenizes_iff (by decide) [str "localhost"] 44 _).mpr (by decide),
    tokenize_splits (by decide) [str "localhost"] 44⟩

end Peter
