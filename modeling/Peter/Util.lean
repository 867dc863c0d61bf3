import Mathlib.Data.List.Basic
import Mathlib.Data.List.TakeWhile
import Mathlib.Data.Int.Notation
import Mathlib.Tactic.Common

/-!
# Strings and the helpers of `util.cc`

A `std::string` is a list of bytes.  This file has the members of `std::string` the program uses
and the functions of `util.h` and `util.cc` on them; the loops of `replacein` and `Tokenize` run
on fuel that bounds their number of rounds by the length of the text.
-/

namespace Peter

/-- A `std::string`: its bytes. -/
abbrev Str := List UInt8

/-- Whether all bytes of a text have a property is decided along the text. -/
instance (s : Str) (p : UInt8 → Prop) [DecidablePred p] : Decidable (∀ c ∈ s, p c) :=
  List.decidableBAll p s

/-- The bytes of a literal of the source. -/
def str (s : String) : Str := s.toList.map fun c => UInt8.ofNat c.toNat

/-- A byte read as the `char` of x86, which is signed. -/
def charVal (c : UInt8) : ℤ := if c.toNat < 128 then c.toNat else c.toNat - 256

/-! ## `std::string` -/

/-- The first place in a text where `sub` stands. -/
def findIn (sub : Str) : Str → Option ℕ
  | [] => if sub.isEmpty then some 0 else none
  | c :: cs => if sub.isPrefixOf (c :: cs) then some 0 else (findIn sub cs).map (· + 1)

/-- `s.find(sub, b)`, with `none` for `npos`. -/
def find (s sub : Str) (b : ℕ) : Option ℕ :=
  if b ≤ s.length then (findIn sub (s.drop b)).map (· + b) else none

/-- `s.substr(pos, len)`. -/
def substr (s : Str) (pos len : ℕ) : Str := (s.drop pos).take len

/-- `s.replace(pos, len, other)`. -/
def replace (s : Str) (pos len : ℕ) (other : Str) : Str :=
  s.take pos ++ other ++ s.drop (pos + len)

/-- The bytes a C string function reads: those before the first NUL. -/
def cStr (s : Str) : Str := s.takeWhile (· ≠ 0)

theorem cStr_eq_self {s : Str} (h : 0 ∉ s) : cStr s = s := by
  unfold cStr
  rw [List.takeWhile_eq_self_iff]
  intro c hc
  simp only [decide_eq_true_eq]
  rintro rfl
  exact h hc

theorem zero_not_mem_cStr (s : Str) : 0 ∉ cStr s := by
  intro h
  simpa using List.mem_takeWhile_imp h

theorem cStr_cons_zero (s : Str) : cStr (0 :: s) = [] := rfl

theorem cStr_cons {c : UInt8} (hc : c ≠ 0) (s : Str) : cStr (c :: s) = c :: cStr s := by
  simp [cStr, hc]

theorem cStr_append {w t : Str} (hw : 0 ∉ w) (ht : t.head? = some 0) : cStr (w ++ t) = w := by
  obtain ⟨t', rfl⟩ : ∃ t', t = 0 :: t' := by
    rcases t with _ | ⟨c, t⟩
    · cases ht
    · cases ht
      exact ⟨t, rfl⟩
  rw [cStr, List.takeWhile_append_of_pos, List.takeWhile_cons_of_neg (by simp), List.append_nil]
  intro c hc
  simp only [decide_eq_true_eq]
  rintro rfl
  exact hw hc

theorem length_cStr_le (s : Str) : (cStr s).length ≤ s.length :=
  (List.takeWhile_sublist _).length_le

/-- Conversion of a `long` to an `int`. -/
def toInt (i : ℤ) : ℤ := Int.bmod i 4294967296

/-- Conversion to a `long`. -/
def toLong (i : ℤ) : ℤ := Int.bmod i 18446744073709551616

theorem toLong_of_mem {i : ℤ} (hlo : -9223372036854775808 ≤ i) (hhi : i ≤ 9223372036854775807) :
    toLong i = i :=
  Int.bmod_eq_of_le (by omega) (by omega)

/-- Conversion to a `size_t`. -/
def toSize (i : ℤ) : ℕ := (i % 18446744073709551616).toNat

/-- The decimal digits a text begins with, as `strtol` reads them on from `n`. -/
def digits (n : ℤ) : Str → ℤ
  | [] => n
  | c :: cs => if 48 ≤ c.toNat ∧ c.toNat ≤ 57 then digits (10 * n + (c.toNat - 48)) cs else n

/-- `std::stol`; `none` where it throws `invalid_argument` or `out_of_range`. -/
def stol (s : Str) : Option ℤ :=
  let s := s.dropWhile fun c => c.toNat = 32 ∨ 9 ≤ c.toNat ∧ c.toNat ≤ 13
  let (negative, s) := match s with
    | 45 :: s => (true, s)
    | 43 :: s => (false, s)
    | s => (false, s)
  match s.head? with
  | none => none
  | some c =>
    let n := if negative then -digits 0 s else digits 0 s
    if 48 ≤ c.toNat ∧ c.toNat ≤ 57 ∧ -9223372036854775808 ≤ n ∧ n ≤ 9223372036854775807 then some n
    else none

/-! ## `util.h` and `util.cc` -/

def replaceinLoop (sub other : Str) : ℕ → Str → ℕ → Str
  | 0, s, _ => s
  | fuel + 1, s, b => match find s sub b with
    | none => s
    | some b => replaceinLoop sub other fuel (replace s b sub.length other) (b + other.length)

/-- `replacein`: every occurrence of `sub` from left to right becomes `other`. -/
def replacein (s sub other : Str) : Str := replaceinLoop sub other (s.length + 1) s 0

def tokenizeLoop (buffer : Str) (delimiter : UInt8) : ℕ → ℕ → List Str → List Str
  | 0, _, tokens => tokens
  | fuel + 1, posAnt, tokens => match find buffer [delimiter] posAnt with
    | some pos =>
      tokenizeLoop buffer delimiter fuel (pos + 1) (tokens ++ [substr buffer posAnt (pos - posAnt)])
    | none =>
      if buffer.isEmpty then tokens else tokens ++ [substr buffer posAnt buffer.length]

/-- `Tokenize`: the pieces of the buffer between the delimiters, appended to `tokens`. -/
def tokenize (buffer : Str) (tokens : List Str) (delimiter : UInt8) : List Str :=
  tokenizeLoop buffer delimiter (buffer.length + 1) 0 tokens

/-- `to_str(int)`. -/
def toStr (i : ℤ) : Str := str (toString i)

/-- `to_str(int, int, char)`: padded on the left to width `l`. -/
def toStrPad (i : ℤ) (l : ℕ) (p : UInt8) : Str :=
  List.replicate (l - (toStr i).length) p ++ toStr i

def secsToStrLoop : List (ℤ × Str) → ℤ → Str → ℤ × Str
  | [], t, res => (t, res)
  | (div, ind) :: rest, t, res =>
    let r := toInt (t.tdiv div)
    if r > 0 then secsToStrLoop rest (t - r * div) (res ++ toStrPad r 2 (UInt8.ofNat 48) ++ ind)
    else secsToStrLoop rest t res

/-- `secs_to_str`: seconds as "03w03d02h33m48s". -/
def secsToStr (t : ℤ) : Str :=
  if t = 0 then str "00s"
  else
    let (t, res) := secsToStrLoop
      [(604800, str "w"), (86400, str "d"), (3600, str "h"), (60, str "m")] t []
    if t > 0 then res ++ toStrPad (toInt t) 2 (UInt8.ofNat 48) ++ str "s" else res

/-! ## Wait statuses -/

/-- `WIFSIGNALED`. -/
def wifsignaled (status : ℕ) : Bool := 0 < status % 128 && status % 128 < 127

/-- `WTERMSIG`. -/
def wtermsig (status : ℕ) : ℕ := status % 128

/-- `WEXITSTATUS`. -/
def wexitstatus (status : ℕ) : ℕ := status / 256 % 256

/-- `status_to_str`. -/
def statusToStr (status : ℕ) : Str :=
  toStr (wexitstatus status) ++ str "/" ++ toStr (if wifsignaled status then wtermsig status else 0)

example : secsToStr 106 = str "01m46s" := by decide

example : (stol (str " -12x"), stol (str "x12"), stol (str "9223372036854775808")) =
    (some (-12), none, none) := by decide

example : tokenize (str "a,,b") [] (UInt8.ofNat 44) = [str "a", [], str "b"] := by decide

example : replacein (str "RES/SIG RES") (str "RES") (str "RESULT") = str "RESULT/SIG RESULT" := by
  decide

end Peter
