import Mathlib.Tactic.Linarith
import Peter.Config
import Peter.Lib.Faults

/-!
# Value lists

`Tokenize` splits at the delimiter (`tokenize_eq`), and `stoi` reads a decimal (`stoi_text`).  The
actions go to the numbers of the parts before the first that is no number (`exists_setParts_eq`), in
a well-formed list to exactly the values it covers (`exists_partCovers_iff`).
-/

namespace Peter

/-! ## Conversions -/

theorem toSize_natCast {n : ℕ} (h : n < 18446744073709551616) : toSize n = n := by
  unfold toSize
  omega

theorem toInt_mem (i : ℤ) : -2147483648 ≤ toInt i ∧ toInt i ≤ 2147483647 := by
  have hlo := Int.le_bmod (x := i) (m := 4294967296) (by decide)
  have hhi := Int.bmod_lt (x := i) (m := 4294967296) (by decide)
  unfold toInt
  omega

theorem toInt_of_mem {i : ℤ} (hlo : -2147483648 ≤ i) (hhi : i ≤ 2147483647) : toInt i = i :=
  Int.bmod_eq_of_le (by omega) (by omega)

theorem toInt_natCast {n : ℕ} (h : n < 2147483648) : toInt n = n :=
  toInt_of_mem (by omega) (by omega)

/-! ## Pieces -/

theorem findIn_eq_none {d : UInt8} {s : Str} (h : d ∉ s) : findIn [d] s = none := by
  induction s with
  | nil => rfl
  | cons c s ih =>
    have hne : d ≠ c := fun he => h (he ▸ List.mem_cons_self)
    simp [findIn, hne, ih (fun hs => h (List.mem_cons_of_mem _ hs))]

theorem findIn_append {d : UInt8} {s : Str} (h : d ∉ s) (t : Str) :
    findIn [d] (s ++ d :: t) = some s.length := by
  induction s with
  | nil => simp [findIn]
  | cons c s ih =>
    have hne : d ≠ c := fun he => h (he ▸ List.mem_cons_self)
    simp [findIn, hne, ih (fun hs => h (List.mem_cons_of_mem _ hs))]

/-- What is found of a delimiter from `a` on, and the text before and behind it. -/
theorem find_delimiter {buffer : Str} {a : ℕ} (d : UInt8) (ha : a ≤ buffer.length) :
    (find buffer [d] a = none ∧ d ∉ buffer.drop a) ∨
    ∃ u v, buffer.drop a = u ++ d :: v ∧ d ∉ u ∧ find buffer [d] a = some (u.length + a) ∧
      substr buffer a u.length = u ∧ buffer.drop (u.length + a + 1) = v := by
  rw [find, if_pos ha]
  by_cases hd : d ∈ buffer.drop a
  · obtain ⟨u, v, huv, hu⟩ := List.eq_append_cons_of_mem hd
    refine Or.inr ⟨u, v, huv, hu, ?_, ?_, ?_⟩
    · rw [huv, findIn_append hu, Option.map_some]
    · rw [substr, huv, List.take_left]
    · rw [show u.length + a + 1 = a + (u.length + 1) by omega, ← List.drop_drop, huv,
        ← List.singleton_append, ← List.append_assoc, List.drop_left' (by simp)]
  · exact Or.inl ⟨by rw [findIn_eq_none hd, Option.map_none], hd⟩

theorem tokenizeLoop_eq {buffer : Str} (d : UInt8) (hne : buffer ≠ []) (fuel posAnt : ℕ)
    (tokens : List Str) (hpos : posAnt ≤ buffer.length) (hfuel : buffer.length - posAnt < fuel) :
    tokenizeLoop buffer d fuel posAnt tokens = tokens ++ (buffer.drop posAnt).splitOn d := by
  induction fuel generalizing posAnt tokens with
  | zero => omega
  | succ fuel ih =>
    rw [tokenizeLoop]
    rcases find_delimiter d hpos with ⟨hfind, hd⟩ | ⟨u, v, huv, hu, hfind, htok, hv⟩
    · rw [hfind]
      dsimp only
      rw [if_neg (by simpa using hne), List.splitOn_eq_singleton hd, substr,
        List.take_of_length_le (by rw [List.length_drop]; omega)]
    · have hlen := congrArg List.length huv
      rw [List.length_drop, List.length_append, List.length_cons] at hlen
      rw [hfind]
      dsimp only
      rw [ih _ _ (by omega) (by omega), hv, Nat.add_sub_cancel, htok, huv,
        List.splitOn_append_cons_self_of_not_mem hu, List.append_assoc, List.singleton_append]

/-- `Tokenize` appends the pieces between the delimiters, and nothing for an empty buffer. -/
theorem tokenize_eq (buffer : Str) (tokens : List Str) (d : UInt8) :
    tokenize buffer tokens d = tokens ++ if buffer = [] then [] else buffer.splitOn d := by
  by_cases hne : buffer = []
  · subst hne
    simp [tokenize, tokenizeLoop, find, findIn]
  · rw [tokenize, tokenizeLoop_eq d hne _ _ _ (Nat.zero_le _) (by omega), List.drop_zero,
      if_neg hne]

/-! ## Decimals -/

def IsDigit (c : UInt8) : Prop := 48 ≤ c.toNat ∧ c.toNat ≤ 57

instance : DecidablePred IsDigit := fun _ => inferInstanceAs (Decidable (_ ∧ _))

theorem digits_nonneg {n : ℤ} (hn : 0 ≤ n) (s : Str) : 0 ≤ digits n s := by
  induction s generalizing n with
  | nil => exact hn
  | cons c s ih =>
    rw [digits]
    split_ifs with hc
    · exact ih (by omega)
    · exact hn

theorem stol_of_isDigit {c : UInt8} {s : Str} (hc : IsDigit c)
    (hhi : digits 0 (c :: s) ≤ 9223372036854775807) :
    stol (c :: s) = some (digits 0 (c :: s)) := by
  have h0 := digits_nonneg le_rfl (c :: s)
  have hc : 48 ≤ c.toNat ∧ c.toNat ≤ 57 := hc
  have h45 : c ≠ 45 := by rintro rfl; exact absurd hc (by decide)
  have h43 : c ≠ 43 := by rintro rfl; exact absurd hc (by decide)
  unfold stol
  rw [List.dropWhile_cons_of_neg (by simp; omega)]
  simp only [List.cons.injEq, h45, h43, false_and, imp_self, implies_true, List.head?_cons]
  rw [if_pos (by simp; omega)]
  rfl

theorem stol_neg_of_isDigit {c : UInt8} {s : Str} (hc : IsDigit c)
    (hlo : digits 0 (c :: s) ≤ 9223372036854775808) :
    stol (45 :: c :: s) = some (-digits 0 (c :: s)) := by
  have h0 := digits_nonneg le_rfl (c :: s)
  have hc : 48 ≤ c.toNat ∧ c.toNat ≤ 57 := hc
  unfold stol
  rw [List.dropWhile_cons_of_neg (by decide)]
  simp only [List.head?_cons]
  rw [if_pos (by simp; omega)]
  rfl

/-- A decimal number below the largest `int`, leading zeros allowed. -/
structure Decimal where
  text : Str
  ne_nil : text ≠ []
  isDigit : ∀ c ∈ text, IsDigit c
  lt : digits 0 text < 2147483647

namespace Decimal

def value (d : Decimal) : ℤ := digits 0 d.text

theorem value_nonneg (d : Decimal) : 0 ≤ d.value := digits_nonneg le_rfl d.text

theorem stol_text (d : Decimal) : stol d.text = some d.value := by
  have hlt : d.value < 2147483647 := d.lt
  unfold value at hlt ⊢
  obtain ⟨c, s, hs⟩ := List.exists_cons_of_ne_nil d.ne_nil
  have hc : IsDigit c := d.isDigit c (hs ▸ List.mem_cons_self)
  rw [hs] at hlt ⊢
  exact stol_of_isDigit hc (by omega)

theorem stoi_text (d : Decimal) : stoi d.text = some d.value := by
  have h0 := d.value_nonneg
  have hlt : d.value < 2147483647 := d.lt
  rw [stoi, stol_text, Option.bind_some, if_pos (by omega)]

theorem not_mem_of_not_isDigit (d : Decimal) {c : UInt8} (hc : ¬IsDigit c) : c ∉ d.text :=
  fun h => hc (d.isDigit c h)

end Decimal

/-! ## Numbers that are printed -/

theorem toNat_ofNat_of_isDigit {c : Char} (hc : c.isDigit) :
    (UInt8.ofNat c.toNat).toNat = c.toNat ∧ 48 ≤ c.toNat ∧ c.toNat ≤ 57 := by
  rw [Char.isDigit, Bool.and_eq_true, decide_eq_true_eq, decide_eq_true_eq] at hc
  have hlo : 48 ≤ c.toNat := UInt32.le_iff_toNat_le.1 hc.1
  have hhi : c.toNat ≤ 57 := UInt32.le_iff_toNat_le.1 hc.2
  exact ⟨UInt8.toNat_ofNat_of_lt' (by rw [UInt8.size]; omega), hlo, hhi⟩

theorem digits_map {l : List Char} (hl : ∀ c ∈ l, c.isDigit) (n : ℕ) (r : Str) :
    digits n (l.map (fun c => UInt8.ofNat c.toNat) ++ r) = digits (Nat.ofDigitChars 10 l n) r := by
  induction l generalizing n with
  | nil => simp
  | cons c l ih =>
    obtain ⟨hc, hl⟩ := List.forall_mem_cons.1 hl
    obtain ⟨hbyte, hc⟩ := toNat_ofNat_of_isDigit hc
    have hzero : '0'.toNat = 48 := rfl
    rw [List.map_cons, List.cons_append, digits, hbyte, if_pos hc, Nat.ofDigitChars_cons, ← ih hl]
    congr 1
    push_cast
    omega

theorem isDigit_of_mem_toDigits {n : ℕ} {c : Char} (hc : c ∈ Nat.toDigits 10 n) : c.isDigit :=
  Nat.isDigit_of_mem_toDigits (by decide) (by decide) hc

theorem toStr_natCast (n : ℕ) :
    toStr (n : ℤ) = (Nat.toDigits 10 n).map fun c => UInt8.ofNat c.toNat := by
  rw [← Nat.toList_repr]
  rfl

theorem toStr_negSucc (n : ℕ) : toStr (Int.negSucc n) = 45 :: toStr ((n + 1 : ℕ) : ℤ) := by
  show str ("-" ++ Nat.repr (n + 1)) = 45 :: str (Nat.repr (n + 1))
  rw [str, String.toList_append, List.map_append]
  rfl

/-- What follows the digits of a number. -/
def EndsNumber (r : Str) : Prop := ∀ c ∈ r.head?, ¬IsDigit c

theorem digits_toStr (n : ℕ) {r : Str} (hr : EndsNumber r) : digits 0 (toStr (n : ℤ) ++ r) = n := by
  have h := digits_map (fun c hc => isDigit_of_mem_toDigits (n := n) hc) 0 r
  rw [Nat.cast_zero, Nat.ofDigitChars_ten_toDigits, ← toStr_natCast] at h
  rw [h]
  cases r with
  | nil => rfl
  | cons c r => exact if_neg (hr c rfl)

theorem toStr_eq_cons (n : ℕ) : ∃ c t, toStr (n : ℤ) = c :: t ∧ IsDigit c := by
  obtain ⟨c, t, ht⟩ := List.exists_cons_of_ne_nil (Nat.toDigits_ne_nil (n := n) (b := 10))
  obtain ⟨hbyte, hc⟩ := toNat_ofNat_of_isDigit
    (isDigit_of_mem_toDigits (c := c) (n := n) (ht ▸ List.mem_cons_self))
  refine ⟨UInt8.ofNat c.toNat, _, by rw [toStr_natCast, ht, List.map_cons], ?_⟩
  unfold IsDigit
  rw [hbyte]
  exact hc

/-- Reading a printed number gives it back. -/
theorem stol_toStr {n : ℤ} (hlo : -9223372036854775808 ≤ n) (hhi : n ≤ 9223372036854775807)
    {r : Str} (hr : EndsNumber r) : stol (toStr n ++ r) = some n := by
  cases n with
  | ofNat n =>
    obtain ⟨c, t, ht, hc⟩ := toStr_eq_cons n
    have hdigits := digits_toStr n hr
    show stol (toStr (n : ℤ) ++ r) = some (n : ℤ)
    rw [ht, List.cons_append] at hdigits ⊢
    rw [stol_of_isDigit hc (by rw [hdigits]; exact hhi), hdigits]
  | negSucc n =>
    obtain ⟨c, t, ht, hc⟩ := toStr_eq_cons (n + 1)
    have hdigits := digits_toStr (n + 1) hr
    rw [toStr_negSucc, List.cons_append]
    rw [ht, List.cons_append] at hdigits ⊢
    rw [stol_neg_of_isDigit hc (by rw [hdigits]; omega), hdigits]
    rfl

/-! ## Lists -/

/-- A value or a range of values. -/
inductive Part
  | single (d : Decimal)
  | range (a b : Decimal)

namespace Part

def text : Part → Str
  | single d => d.text
  | range a b => a.text ++ str "-" ++ b.text

def Covers : Part → ℤ → Prop
  | single d, n => n = d.value
  | range a b, n => a.value ≤ n ∧ n ≤ b.value

theorem text_ne_nil : ∀ q : Part, q.text ≠ []
  | single d => d.ne_nil
  | range a b => by simp [text, a.ne_nil]

theorem comma_not_mem_text : ∀ q : Part, 44 ∉ q.text
  | single d => d.not_mem_of_not_isDigit (by decide)
  | range a b => by
    have ha := a.not_mem_of_not_isDigit (c := 44) (by decide)
    have hb := b.not_mem_of_not_isDigit (c := 44) (by decide)
    have hdash : (44 : UInt8) ∉ str "-" := by decide
    simp [text, ha, hb, hdash]

end Part

/-- The text is a list of values and ranges, separated by commas. -/
def IsValueList (s : Str) (parts : List Part) : Prop :=
  parts ≠ [] ∧ s = [44].intercalate (parts.map Part.text)

/-- Some part of the text covers `n`. -/
def ListCovers (s : Str) (n : ℤ) : Prop := ∃ parts, IsValueList s parts ∧ ∃ q ∈ parts, q.Covers n

theorem IsValueList.tokenize_eq {s : Str} {parts : List Part} (h : IsValueList s parts) :
    tokenize s [] (UInt8.ofNat 44) = parts.map Part.text := by
  obtain ⟨hne, rfl⟩ := h
  have hsplit : ([44].intercalate (parts.map Part.text)).splitOn 44 = parts.map Part.text := by
    apply List.splitOn_intercalate
    · intro l hl
      obtain ⟨q, -, rfl⟩ := List.mem_map.1 hl
      exact q.comma_not_mem_text
    · simpa using hne
  have hnil : [44].intercalate (parts.map Part.text) ≠ [] := by
    intro hnil
    rw [hnil, List.splitOn_nil] at hsplit
    obtain ⟨q, -, hq⟩ := List.mem_map.1 (hsplit ▸ List.mem_singleton_self ([] : Str))
    exact q.text_ne_nil hq
  rw [Peter.tokenize_eq, if_neg hnil, List.nil_append]
  exact hsplit

/-- The table `t'` is `t` with `al` stored at the values of `P`. -/
structure Stored (al : ActionList) (P : ℤ → Prop) (t t' : Table) : Prop where
  of_mem : ∀ n, P n → t' n = some (some al)
  of_not_mem : ∀ n, ¬P n → t' n = t n

namespace Stored

variable {al : ActionList} {P Q : ℤ → Prop} {t t' t'' : Table}

theorem set (al : ActionList) (a : ℤ) (t : Table) : Stored al (· = a) t (t.set a al) where
  of_mem n hn := by rw [hn, Table.set, Function.update_self]
  of_not_mem n hn := by rw [Table.set, Function.update_of_ne hn]

theorem refl (al : ActionList) (t : Table) : Stored al (fun _ => False) t t where
  of_mem _ hn := hn.elim
  of_not_mem _ _ := rfl

theorem trans (h : Stored al P t t') (h' : Stored al Q t' t'') :
    Stored al (fun n => P n ∨ Q n) t t'' where
  of_mem n hn := by
    by_cases hq : Q n
    · exact h'.of_mem n hq
    · rw [h'.of_not_mem n hq]
      exact h.of_mem n (hn.resolve_right hq)
  of_not_mem n hn := by
    rw [h'.of_not_mem n (fun hq => hn (.inr hq)), h.of_not_mem n (fun hp => hn (.inl hp))]

theorem congr (h : Stored al P t t') (hPQ : ∀ n, Q n ↔ P n) : Stored al Q t t' where
  of_mem n hn := h.of_mem n ((hPQ n).1 hn)
  of_not_mem n hn := h.of_not_mem n (fun hp => hn ((hPQ n).2 hp))

end Stored

theorem setRange_stored (al : ActionList) (a : ℤ) (k : ℕ) (t : Table) :
    Stored al (fun n => a ≤ n ∧ n < a + k) t (setRange al a k t) := by
  induction k generalizing a t with
  | zero => exact (Stored.refl al t).congr fun n => ⟨fun h => by omega, False.elim⟩
  | succ k ih =>
    refine ((Stored.set al a t).trans (ih (a + 1) (t.set a al))).congr fun n => ?_
    push_cast
    omega

/-! ## Parts of a list -/

/-- What a part of a value list says: the first and the last number, which are the same without a
dash. -/
def readPart (tmp : Str) : Except ReadFault (ℤ × ℤ) :=
  match find tmp (str "-") 0 with
  | some _ =>
    let rangeParts := tokenize tmp [] (UInt8.ofNat 45)
    match rangeParts[0]?, rangeParts[1]? with
    | some a, some b => match stoi a, stoi b with
      | some a, some b => if b = 2147483647 ∧ a ≤ b then .error .undefined else .ok (a, b)
      | _, _ => .error .thrown
    | _, _ => .error .undefined
  | none => match stoi tmp with
    | some n => .ok (n, n)
    | none => .error .thrown

/-- Why a reader of one thing does not return. -/
def faultOf {α : Type} : Except ReadFault α → Option ReadFault
  | .ok _ => none
  | .error f => some f

/-- The part is read and `n` is one of its numbers. -/
def PartCovers (tmp : Str) (n : ℤ) : Prop := ∃ a b, readPart tmp = .ok (a, b) ∧ a ≤ n ∧ n ≤ b

/-- What a part does to the table. -/
theorem setParts_cases (al : ActionList) (tmp : Str) (parts : List Str) (t : Table) :
    (∃ f, readPart tmp = .error f ∧ setParts al (tmp :: parts) t = (t, some f)) ∨
    ∃ a b, readPart tmp = .ok (a, b) ∧
      setParts al (tmp :: parts) t = setParts al parts (setRange al a (b + 1 - a).toNat t) := by
  rw [setParts, readPart]
  cases find tmp (str "-") 0 with
  | none =>
    cases stoi tmp with
    | none => exact .inl ⟨_, rfl, rfl⟩
    | some n =>
      refine .inr ⟨n, n, rfl, ?_⟩
      rw [show (n + 1 - n).toNat = 1 by omega]
      rfl
  | some pos =>
    dsimp only
    cases (tokenize tmp [] (UInt8.ofNat 45))[0]? with
    | none => exact .inl ⟨_, rfl, rfl⟩
    | some a =>
      cases (tokenize tmp [] (UInt8.ofNat 45))[1]? with
      | none => exact .inl ⟨_, rfl, rfl⟩
      | some b =>
        dsimp only
        cases stoi a with
        | none => exact .inl ⟨_, rfl, rfl⟩
        | some a =>
          cases stoi b with
          | none => exact .inl ⟨_, rfl, rfl⟩
          | some b =>
            dsimp only
            split_ifs
            · exact .inl ⟨_, rfl, rfl⟩
            · exact .inr ⟨a, b, rfl, rfl⟩

/-- The list goes to the numbers of the parts before the first that is no number. -/
theorem exists_setParts_eq (al : ActionList) (parts : List Str) (t : Table) :
    ∃ t', setParts al parts t = (t', parts.findSome? fun tmp => faultOf (readPart tmp)) ∧
      Stored al (fun n => ∃ tmp ∈ Faults.upToFault (fun tmp => faultOf (readPart tmp)) parts,
        PartCovers tmp n) t t' := by
  refine Faults.exists_loop_eq (S := fun tmp t t' => Stored al (PartCovers tmp) t t')
    (R := fun parts t t' => Stored al (fun n => ∃ tmp ∈ parts, PartCovers tmp n) t t')
    (fun t => rfl) ?_ (fun t => (Stored.refl al t).congr fun n => by simp)
    (fun hround hrest => (hround.trans hrest).congr fun n => by simp) parts t
  intro tmp parts t
  rcases setParts_cases al tmp parts t with ⟨f, hpart, hloop⟩ | ⟨a, b, hpart, hloop⟩
  · refine ⟨t, (Stored.refl al t).congr fun n => ?_, ?_⟩
    · simp [PartCovers, hpart]
    · rw [hloop, hpart]
      rfl
  · refine ⟨_, (setRange_stored al a (b + 1 - a).toNat t).congr fun n => ?_, ?_⟩
    · have hcovers : PartCovers tmp n ↔ a ≤ n ∧ n ≤ b := by simp [PartCovers, hpart]
      rw [hcovers]
      omega
    · rw [hloop, hpart]
      rfl

theorem readPart_eq_ok_iff {tmp : Str} {a b : ℤ} (h : readPart tmp = .ok (a, b)) (n : ℤ) :
    PartCovers tmp n ↔ a ≤ n ∧ n ≤ b := by
  simp [PartCovers, h]

/-- The text of a part is read, and says what the part covers. -/
theorem Part.exists_readPart_text (q : Part) :
    ∃ a b, readPart q.text = .ok (a, b) ∧ ∀ n, q.Covers n ↔ a ≤ n ∧ n ≤ b := by
  cases q with
  | single d =>
    have hfind : find d.text (str "-") 0 = none := by
      rw [find, if_pos (Nat.zero_le _), List.drop_zero]
      exact congrArg (Option.map (· + 0)) (findIn_eq_none (d.not_mem_of_not_isDigit (by decide)))
    refine ⟨d.value, d.value, ?_, fun n => ?_⟩
    · rw [readPart, text, hfind]
      dsimp only
      rw [d.stoi_text]
    · rw [Covers]
      omega
  | range a b =>
    have ha : (45 : UInt8) ∉ a.text := a.not_mem_of_not_isDigit (by decide)
    have hb : (45 : UInt8) ∉ b.text := b.not_mem_of_not_isDigit (by decide)
    have htext : a.text ++ str "-" ++ b.text = a.text ++ 45 :: b.text :=
      List.append_assoc ..
    have hfind : find (a.text ++ 45 :: b.text) (str "-") 0 = some (a.text.length + 0) := by
      rw [find, if_pos (Nat.zero_le _), List.drop_zero]
      exact congrArg (Option.map (· + 0)) (findIn_append ha b.text)
    have htok : tokenize (a.text ++ 45 :: b.text) [] (UInt8.ofNat 45) = [a.text, b.text] := by
      rw [tokenize_eq, if_neg (by simp), List.nil_append]
      exact (List.splitOn_append_cons_self_of_not_mem ha b.text).trans
        (congrArg _ (List.splitOn_eq_singleton hb))
    have hblt : b.value < 2147483647 := b.lt
    refine ⟨a.value, b.value, ?_, fun n => Iff.rfl⟩
    rw [readPart, text, htext, hfind]
    dsimp only
    rw [htok]
    simp only [List.getElem?_cons_zero, List.getElem?_cons_succ, a.stoi_text, b.stoi_text]
    rw [if_neg (by omega)]

theorem Part.partCovers_text (q : Part) (n : ℤ) : PartCovers q.text n ↔ q.Covers n := by
  obtain ⟨a, b, hread, hcovers⟩ := q.exists_readPart_text
  rw [hcovers, readPart_eq_ok_iff hread]

namespace IsValueList

variable {s : Str} {parts : List Part}

/-- A well-formed list is read to its end. -/
theorem findSome?_faultOf (h : IsValueList s parts) :
    (tokenize s [] (UInt8.ofNat 44)).findSome? (fun tmp => faultOf (readPart tmp)) = none := by
  rw [h.tokenize_eq, List.findSome?_eq_none_iff]
  intro tmp htmp
  obtain ⟨q, -, rfl⟩ := List.mem_map.1 htmp
  obtain ⟨a, b, hread, -⟩ := q.exists_readPart_text
  rw [hread]
  rfl

theorem exists_partCovers_iff (h : IsValueList s parts) (n : ℤ) :
    (∃ tmp ∈ tokenize s [] (UInt8.ofNat 44), PartCovers tmp n) ↔ ∃ q ∈ parts, q.Covers n := by
  rw [h.tokenize_eq]
  simp [Part.partCovers_text]

/-- A text has one reading as a value list, as far as covering goes. -/
theorem listCovers_iff (h : IsValueList s parts) (n : ℤ) :
    ListCovers s n ↔ ∃ tmp ∈ tokenize s [] (UInt8.ofNat 44), PartCovers tmp n := by
  constructor
  · rintro ⟨parts', h', hq⟩
    exact (h'.exists_partCovers_iff n).2 hq
  · intro htmp
    exact ⟨parts, h, (h.exists_partCovers_iff n).1 htmp⟩

end IsValueList

end Peter
