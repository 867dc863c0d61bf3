import Peter.Lib.Quoted
import Peter.Util

/-!
# The words of a command

`arg_split` cuts the command of a program into the words for `execvp`: it walks over its buffer with
one pointer, puts a NUL in place of every blank outside quotes and stores a pointer to the start
of each word.

The model keeps the block the buffer lies in and stops at an access past it (`overrun`) or at a
pointer for which the array has no room (`overflow`); the loops run on fuel, and `endless` says
that they did not end.
-/

namespace Peter

/-- How a run of `arg_split` goes wrong. -/
inductive Fault
  | overrun
  | overflow
  | endless
  deriving DecidableEq

/-- The block of the buffer, the pointer into it, the pointers stored, and `in_string`. -/
structure ArgState where
  buf : Str
  pos : ℕ
  args : List ℕ
  inString : Bool

/-- A blank or a tab. -/
def isBlank (c : UInt8) : Bool := c = 32 || c = 9

/-- A double quote. -/
def isQuote (c : UInt8) : Bool := c = 34

namespace ArgState

/-- `*buf`. -/
def peek (st : ArgState) : Except Fault UInt8 :=
  st.buf[st.pos]?.elim (.error .overrun) .ok

/-- The loop over the blanks. -/
def skipBlanks : ℕ → ArgState → Except Fault ArgState
  | 0, _ => .error .endless
  | fuel + 1, st => do
    let c ← st.peek
    if isBlank c then
      skipBlanks fuel
        (if !st.inString then { st with buf := st.buf.set st.pos 0, pos := st.pos + 1 } else st)
    else pure st

/-- `*args++ = buf`, in an array of `cap` pointers. -/
def store (cap : ℕ) (st : ArgState) : Except Fault ArgState :=
  if st.args.length < cap then pure { st with args := st.args ++ [st.pos] } else .error .overflow

/-- The loop to the next `'`. -/
def skipQuoted : ℕ → ArgState → Except Fault ArgState
  | 0, _ => .error .endless
  | fuel + 1, st => do
    let c ← st.peek
    if c ≠ 39 then skipQuoted fuel { st with pos := st.pos + 1 } else pure st

/-- The loop over a word. -/
def skipWord : ℕ → ArgState → Except Fault ArgState
  | 0, _ => .error .endless
  | fuel + 1, st => do
    let c ← st.peek
    if st.inString || (c ≠ 0 && !isBlank c) then
      skipWord fuel
        { st with inString := if isQuote c then !st.inString else st.inString, pos := st.pos + 1 }
    else pure st

/-- The outer loop. -/
def splitLoop (cap : ℕ) : ℕ → ArgState → Except Fault ArgState
  | 0, _ => .error .endless
  | fuel + 1, st => do
    let c ← st.peek
    if c ≠ 0 then
      let st ← skipBlanks (st.buf.length + 1) st
      let st ← if !st.inString then st.store cap else pure st
      let c ← st.peek
      let st ← if c = 39 then skipQuoted (st.buf.length + 1) st else pure st
      let st ← skipWord (st.buf.length + 1) st
      splitLoop cap fuel st
    else pure st

/-- The strings the stored pointers point to. -/
def argv (st : ArgState) : List Str := st.args.map fun p => cStr (st.buf.drop p)

end ArgState

/-- `arg_split` on a block, for an array of `cap` pointers; the last one it stores is `NULL`. -/
def argSplit (cap : ℕ) (buf : Str) : Except Fault ArgState := do
  let st ← ArgState.splitLoop cap (buf.length + 1) { buf, pos := 0, args := [], inString := false }
  if st.args.length < cap then pure st else .error .overflow

/-- `strdup(s.c_str())`: the block with the bytes and the terminator. -/
def strdup (s : Str) : Str := cStr s ++ [0]

/-- The number of pointers in the array of `Program::run`. -/
def argsSize : ℕ := 256

/-- The words of a command: its maximal runs without a blank or tab outside double quotes. -/
def commandWords (cmd : Str) : List Str := Quoted.words isBlank isQuote (cStr cmd)

/-- The command ends with a blank or a tab. -/
def TrailingBlank (cmd : Str) : Prop := (cStr cmd).getLast?.any isBlank = true

instance (cmd : Str) : Decidable (TrailingBlank cmd) := inferInstanceAs (Decidable (_ = true))

/-- The command has an even number of double quotes. -/
def EvenQuotes (cmd : Str) : Prop := Even ((cStr cmd).countP isQuote)

instance (cmd : Str) : Decidable (EvenQuotes cmd) := inferInstanceAs (Decidable (Even _))

example : (argSplit argsSize (strdup (str " ls\t-l \"a b\""))).toOption.map ArgState.argv =
    some [str "ls", str "-l", str "\"a b\""] := by
  decide

/-! ## One round of the loop -/

namespace ArgState

/-- The pointer stands between `d` and `t`. -/
def here (d t : Str) (args : List ℕ) (inString : Bool) : ArgState :=
  { buf := d ++ t, pos := d.length, args, inString }

@[simp] theorem peek_here_cons (d : Str) (c : UInt8) (t : Str) (args : List ℕ) (q : Bool) :
    (here d (c :: t) args q).peek = .ok c := by
  simp [peek, here]

@[simp] theorem peek_here_nil (d : Str) (args : List ℕ) (q : Bool) :
    (here d [] args q).peek = .error .overrun := by
  simp [peek, here]

/-- Over a blank the pointer moves on, with a NUL left behind. -/
theorem skipBlanks_blank (fuel : ℕ) (d : Str) {c : UInt8} (hc : isBlank c = true) (t : Str)
    (args : List ℕ) : skipBlanks (fuel + 1) (here d (c :: t) args false) =
      skipBlanks fuel (here (d ++ [0]) t args false) := by
  rw [skipBlanks, peek_here_cons]
  simp [bind, Except.bind, here, hc]

theorem skipBlanks_stop (fuel : ℕ) (d : Str) {c : UInt8} (hc : isBlank c = false) (t : Str)
    (args : List ℕ) : skipBlanks (fuel + 1) (here d (c :: t) args false) =
      .ok (here d (c :: t) args false) := by
  rw [skipBlanks, peek_here_cons]
  simp [bind, Except.bind, hc, pure, Except.pure]

/-- The blanks become NULs. -/
theorem skipBlanks_here {b : Str} (hb : ∀ c ∈ b, isBlank c = true) {c : UInt8}
    (hc : isBlank c = false) (t : Str) (args : List ℕ) {d : Str} {fuel : ℕ}
    (hfuel : b.length < fuel) :
    skipBlanks fuel (here d (b ++ c :: t) args false) =
      .ok (here (d ++ List.replicate b.length 0) (c :: t) args false) := by
  induction b generalizing d fuel with
  | nil =>
    obtain ⟨fuel, rfl⟩ : ∃ n, fuel = n + 1 := ⟨fuel - 1, by omega⟩
    rw [List.nil_append, skipBlanks_stop fuel d hc]
    simp
  | cons x b ih =>
    obtain ⟨fuel, rfl⟩ : ∃ n, fuel = n + 1 := ⟨fuel - 1, by omega⟩
    rw [List.cons_append, skipBlanks_blank fuel d (hb x List.mem_cons_self),
      ih (fun y hy => hb y (List.mem_cons_of_mem x hy)) (by simpa using hfuel), List.append_assoc]
    rfl

/-- Inside quotes, and outside them up to a blank or the terminator, the pointer moves on. -/
theorem skipWord_go (fuel : ℕ) (d : Str) {c : UInt8} {q : Bool}
    (h : q = true ∨ c ≠ 0 ∧ isBlank c = false) (t : Str) (args : List ℕ) :
    skipWord (fuel + 1) (here d (c :: t) args q) =
      skipWord fuel (here (d ++ [c]) t args (q ^^ isQuote c)) := by
  have hflag : (if isQuote c then !q else q) = (q ^^ isQuote c) := by
    cases isQuote c <;> simp
  have hgo : (q || (c ≠ 0 && !isBlank c)) = true := by simpa using h
  rw [skipWord, peek_here_cons, ← hflag]
  change (if (q || (c ≠ 0 && !isBlank c)) = true then _ else _) = _
  rw [if_pos hgo]
  simp [here]

theorem skipWord_stop (fuel : ℕ) (d : Str) {c : UInt8} (h : c = 0 ∨ isBlank c = true) (t : Str)
    (args : List ℕ) : skipWord (fuel + 1) (here d (c :: t) args false) =
      .ok (here d (c :: t) args false) := by
  have hstop : ¬(false || (c ≠ 0 && !isBlank c)) = true := by
    rcases h with rfl | h
    · decide
    · simp [h]
  rw [skipWord, peek_here_cons]
  change (if (false || (c ≠ 0 && !isBlank c)) = true then _ else _) = _
  rw [if_neg hstop]
  rfl

/-- The word loop ends where the scan of the text ends. -/
theorem skipWord_here {s w r : Str} {q : Bool} (hs : 0 ∉ s)
    (h : Quoted.scan isBlank isQuote q s = some (w, r)) (args : List ℕ) {d : Str} {fuel : ℕ}
    (hfuel : s.length < fuel) :
    skipWord fuel (here d (s ++ [0]) args q) = .ok (here (d ++ w) (r ++ [0]) args false) := by
  induction s generalizing q w d fuel with
  | nil =>
    obtain ⟨fuel, rfl⟩ : ∃ n, fuel = n + 1 := ⟨fuel - 1, by omega⟩
    cases q with
    | true => cases h
    | false =>
      cases h
      rw [List.nil_append, skipWord_stop fuel d (Or.inl rfl), List.append_nil]
  | cons c s ih =>
    obtain ⟨fuel, rfl⟩ : ∃ n, fuel = n + 1 := ⟨fuel - 1, by omega⟩
    have hc : c ≠ 0 := fun hc => hs (hc ▸ List.mem_cons_self)
    have hs' : 0 ∉ s := fun h0 => hs (List.mem_cons_of_mem c h0)
    rw [Quoted.scan] at h
    by_cases hsep : (!q && isBlank c) = true
    · rw [if_pos hsep] at h
      cases h
      rw [Bool.and_eq_true, Bool.not_eq_true'] at hsep
      obtain ⟨rfl, hblank⟩ := hsep
      rw [List.cons_append, skipWord_stop fuel d (Or.inr hblank), List.append_nil]
    · rw [if_neg hsep, Option.map_eq_some_iff] at h
      obtain ⟨⟨w', r'⟩, hscan, hw⟩ := h
      cases hw
      have hgo : q = true ∨ c ≠ 0 ∧ isBlank c = false := by
        cases q with
        | true => exact Or.inl rfl
        | false => exact Or.inr ⟨hc, by simpa using hsep⟩
      rw [List.cons_append, skipWord_go fuel d hgo, ih hs' hscan (by simpa using hfuel),
        List.append_assoc]
      rfl

/-- Inside quotes the word loop runs past the terminator. -/
theorem skipWord_overrun {s : Str} {q : Bool} (hs : 0 ∉ s)
    (h : Quoted.scan isBlank isQuote q s = none) (args : List ℕ) {d : Str} {fuel : ℕ}
    (hfuel : s.length + 1 < fuel) :
    skipWord fuel (here d (s ++ [0]) args q) = .error .overrun := by
  induction s generalizing q d fuel with
  | nil =>
    obtain ⟨fuel, rfl⟩ : ∃ n, fuel = n + 2 := ⟨fuel - 2, by simp at hfuel; omega⟩
    cases q with
    | false => cases h
    | true =>
      rw [List.nil_append, skipWord_go (fuel + 1) d (Or.inl rfl), skipWord, peek_here_nil]
      rfl
  | cons c s ih =>
    obtain ⟨fuel, rfl⟩ : ∃ n, fuel = n + 1 := ⟨fuel - 1, by omega⟩
    have hc : c ≠ 0 := fun hc => hs (hc ▸ List.mem_cons_self)
    have hs' : 0 ∉ s := fun h0 => hs (List.mem_cons_of_mem c h0)
    rw [Quoted.scan] at h
    by_cases hsep : (!q && isBlank c) = true
    · rw [if_pos hsep] at h
      cases h
    · rw [if_neg hsep, Option.map_eq_none_iff] at h
      have hgo : q = true ∨ c ≠ 0 ∧ isBlank c = false := by
        cases q with
        | true => exact Or.inl rfl
        | false => exact Or.inr ⟨hc, by simpa using hsep⟩
      rw [List.cons_append, skipWord_go fuel d hgo, ih hs' h (by simpa using hfuel)]

/-- At a `'` the loop to the next one has nothing to do. -/
theorem skipQuoted_here (fuel : ℕ) (d t : Str) (args : List ℕ) :
    skipQuoted (fuel + 1) (here d (39 :: t) args false) = .ok (here d (39 :: t) args false) := by
  rw [skipQuoted, peek_here_cons]
  simp [bind, Except.bind, pure, Except.pure]

/-- The word loop goes to the end of the scanned word, or past the terminator. -/
theorem skipWord_scan {s : Str} (hs : 0 ∉ s) (d : Str) (args : List ℕ) {fuel : ℕ}
    (hfuel : s.length + 1 < fuel) :
    skipWord fuel (here d (s ++ [0]) args false) =
      (Quoted.scan isBlank isQuote false s).elim (.error .overrun) fun x =>
        .ok (here (d ++ x.1) (x.2 ++ [0]) args false) := by
  rcases hscan : Quoted.scan isBlank isQuote false s with _ | ⟨w, r⟩
  · exact skipWord_overrun hs hscan args hfuel
  · exact skipWord_here hs hscan args (by omega)

theorem store_here (cap : ℕ) (d t : Str) (args : List ℕ) :
    (here d t args false).store cap =
      if args.length < cap then .ok (here d t (args ++ [d.length]) false)
      else .error .overflow := rfl

/-- A word starts where the blanks end, if only at the terminator. -/
theorem exists_cons_of_head {s : Str} (hs : ∀ c ∈ s.head?, isBlank c = false) :
    ∃ c t, s ++ [0] = c :: t ∧ isBlank c = false := by
  cases s with
  | nil => exact ⟨0, [], rfl, rfl⟩
  | cons c s => exact ⟨c, s ++ [0], rfl, hs c rfl⟩

/-- One round: the blanks become NULs, a pointer to what follows them is stored, and a word is
passed. -/
theorem splitLoop_round (cap fuel : ℕ) (d : Str) {b s : Str} (hs : 0 ∉ b ++ s)
    (hne : b ++ s ≠ []) (hb : ∀ c ∈ b, isBlank c = true) (hs' : ∀ c ∈ s.head?, isBlank c = false)
    (args : List ℕ) :
    splitLoop cap (fuel + 1) (here d (b ++ s ++ [0]) args false) =
      if args.length < cap then
        (Quoted.scan isBlank isQuote false s).elim (.error .overrun) fun x =>
          splitLoop cap fuel (here (d ++ List.replicate b.length 0 ++ x.1) (x.2 ++ [0])
            (args ++ [d.length + b.length]) false)
      else .error .overflow := by
  obtain ⟨c, t, hct⟩ : ∃ c t, b ++ s = c :: t := List.exists_cons_of_ne_nil hne
  obtain ⟨c', t', hct', hc'⟩ := exists_cons_of_head hs'
  have hc : c ≠ 0 := fun h0 => hs (by rw [hct, h0]; exact List.mem_cons_self)
  have hs0 : 0 ∉ s := fun h0 => hs (List.mem_append_right b h0)
  have htop : (here d (b ++ s ++ [0]) args false).peek = .ok c := by
    rw [hct]
    exact peek_here_cons d c (t ++ [0]) args false
  have hlen : (here d (b ++ s ++ [0]) args false).buf.length =
      d.length + b.length + s.length + 1 := by
    simp [here]
    omega
  have hblanks : skipBlanks ((here d (b ++ s ++ [0]) args false).buf.length + 1)
      (here d (b ++ s ++ [0]) args false) =
        .ok (here (d ++ List.replicate b.length 0) (s ++ [0]) args false) := by
    rw [List.append_assoc b s, hct'] at hlen ⊢
    exact skipBlanks_here hb hc' t' args (by omega)
  have hword : ∀ st : ArgState,
      st = here (d ++ List.replicate b.length 0) (s ++ [0]) (args ++ [d.length + b.length]) false →
      (do let st ← skipWord (st.buf.length + 1) st; splitLoop cap fuel st) =
        (Quoted.scan isBlank isQuote false s).elim (.error .overrun) fun x =>
          splitLoop cap fuel (here (d ++ List.replicate b.length 0 ++ x.1) (x.2 ++ [0])
            (args ++ [d.length + b.length]) false) := by
    rintro st rfl
    rw [skipWord_scan hs0 _ _ (by simp [here]; omega)]
    cases Quoted.scan isBlank isQuote false s <;> rfl
  rw [splitLoop, htop]
  change (if c ≠ 0 then _ else _) = _
  rw [if_pos hc, hblanks]
  change (store cap _ >>= _) = _
  rw [store_here, List.length_append, List.length_replicate]
  by_cases hcap : args.length < cap
  · rw [if_pos hcap, if_pos hcap, ← hword _ rfl, hct']
    change (peek _ >>= _) = _
    rw [peek_here_cons]
    by_cases h39 : c' = 39
    · subst h39
      change (skipQuoted _ _ >>= _) = _
      rw [skipQuoted_here]
      rfl
    · exact if_neg h39
  · rw [if_neg hcap, if_neg hcap]
    rfl

end ArgState

/-! ## The run of the loop -/

/-- The strings `arg_split` stores pointers to: the words, and an empty string when the text ends
with a blank or a tab. -/
def pointed (s : Str) : List Str :=
  Quoted.words isBlank isQuote s ++ if s.getLast?.any isBlank then [[]] else []

theorem isQuote_of_isBlank (c : UInt8) (h : isBlank c = true) : isQuote c = false := by
  simp only [isBlank, Bool.or_eq_true, decide_eq_true_eq] at h
  rcases h with rfl | rfl <;> rfl

theorem exists_blanks (s : Str) : ∃ b s', s = b ++ s' ∧ (∀ c ∈ b, isBlank c = true) ∧
    ∀ c ∈ s'.head?, isBlank c = false := by
  refine ⟨s.takeWhile isBlank, s.dropWhile isBlank, List.takeWhile_append_dropWhile.symm,
    fun c hc => List.mem_takeWhile_imp hc, fun c hc => ?_⟩
  have h := List.head?_dropWhile_not isBlank s
  rw [Option.mem_def.mp hc] at h
  exact h

theorem scan_ne_nil {c : UInt8} (hc : isBlank c = false) {s w r : Str}
    (hscan : Quoted.scan isBlank isQuote false (c :: s) = some (w, r)) : w ≠ [] := by
  rintro rfl
  obtain ⟨hwr, -, hat⟩ := Quoted.scan_eq_some hscan
  have hr : isBlank c = true := hat c (by rw [← List.nil_append r, ← hwr]; rfl)
  rw [hc] at hr
  cases hr

/-- The first string of a text is the word a round passes. -/
theorem pointed_round {b s w r : Str} (hne : b ++ s ≠ []) (hb : ∀ c ∈ b, isBlank c = true)
    (hs : ∀ c ∈ s.head?, isBlank c = false)
    (hscan : Quoted.scan isBlank isQuote false s = some (w, r)) :
    pointed (b ++ s) = w :: pointed r := by
  obtain ⟨hwr, hword, hat⟩ := Quoted.scan_eq_some hscan
  unfold pointed
  rw [Quoted.words_skip isQuote_of_isBlank hb]
  rcases s with _ | ⟨c, s⟩
  · cases hscan
    have hlast : b.getLast?.any isBlank = true := by
      rw [List.append_nil] at hne
      rw [List.getLast?_eq_some_getLast hne]
      exact hb _ (List.getLast_mem hne)
    rw [List.append_nil, if_pos hlast]
    rfl
  · have hc : isBlank c = false := hs c rfl
    have hw : w ≠ [] := scan_ne_nil hc hscan
    rw [hwr, Quoted.words_word hword hw hat]
    have hlast : (b ++ (w ++ r)).getLast?.any isBlank = r.getLast?.any isBlank := by
      rcases List.eq_nil_or_concat r with rfl | ⟨r, x, rfl⟩
      · rw [List.append_nil, List.getLast?_append_of_ne_nil b hw, List.getLast?_eq_some_getLast hw]
        exact hword.getLast? isQuote_of_isBlank _ (List.getLast?_eq_some_getLast hw)
      · rw [List.concat_eq_append, ← List.append_assoc, ← List.append_assoc]
        simp only [List.getLast?_append, List.getLast?_singleton, Option.some_or]
    rw [hlast]
    rfl

theorem inside_blanks {b : Str} (hb : ∀ c ∈ b, isBlank c = true) (s : Str) :
    Quoted.inside isQuote false (b ++ s) = Quoted.inside isQuote false s := by
  have hblanks : Quoted.inside isQuote false b = false := by
    rw [Quoted.inside_eq_false_iff, List.countP_eq_zero.mpr]
    · exact Even.zero
    · intro c hc
      rw [isQuote_of_isBlank c (hb c hc)]
      exact Bool.false_ne_true
  rw [Quoted.inside_append, hblanks]

theorem inside_scan {s w r : Str} (hscan : Quoted.scan isBlank isQuote false s = some (w, r)) :
    Quoted.inside isQuote false s = Quoted.inside isQuote false r := by
  obtain ⟨rfl, hword, hat⟩ := Quoted.scan_eq_some hscan
  rw [Quoted.inside_append, hword.inside_eq]

/-- A round leaves less of the text. -/
theorem length_scan_lt {b s w r : Str} (hne : b ++ s ≠ []) (hs : ∀ c ∈ s.head?, isBlank c = false)
    (hscan : Quoted.scan isBlank isQuote false s = some (w, r)) :
    r.length < (b ++ s).length := by
  obtain ⟨hwr, hword, hat⟩ := Quoted.scan_eq_some hscan
  have hlen := congrArg List.length hwr
  rw [List.length_append] at hlen ⊢
  rcases s with _ | ⟨c, s⟩
  · have hb : 0 < b.length := List.length_pos_iff.mpr (by simpa using hne)
    simp only [List.length_nil] at hlen ⊢
    omega
  · have hw : w ≠ [] := scan_ne_nil (hs c rfl) hscan
    have hpos : 0 < w.length := List.length_pos_iff.mpr hw
    omega

namespace ArgState

/-- With its quotes closed and room for its strings, a text is passed and they are pointed to. -/
theorem splitLoop_ok (cap fuel : ℕ) (d : Str) {s : Str} (hs : 0 ∉ s) (args : List ℕ)
    (hin : Quoted.inside isQuote false s = false)
    (hcap : args.length + (pointed s).length ≤ cap) (hfuel : s.length < fuel) :
    ∃ tail ps, splitLoop cap fuel (here d (s ++ [0]) args false) =
        .ok (here (d ++ tail) [0] (args ++ ps) false) ∧
      ps.map (fun p => cStr ((d ++ tail ++ [0]).drop p)) = pointed s ∧
      (Quoted.AtSep isBlank s → (tail ++ [0]).head? = some 0) := by
  induction hn : s.length using Nat.strong_induction_on generalizing fuel d s args with
  | _ n ih =>
    obtain ⟨fuel, rfl⟩ : ∃ n, fuel = n + 1 := ⟨fuel - 1, by omega⟩
    by_cases hne : s = []
    · subst hne
      refine ⟨[], [], ?_, rfl, fun _ => rfl⟩
      rw [List.nil_append, splitLoop, peek_here_cons]
      simp [bind, Except.bind, pure, Except.pure]
    · obtain ⟨b, s, rfl, hb, hhead⟩ := exists_blanks s
      have hs0 : 0 ∉ s := fun h0 => hs (List.mem_append_right b h0)
      rcases hscan : Quoted.scan isBlank isQuote false s with _ | ⟨w, r⟩
      · rw [inside_blanks hb, Quoted.scan_eq_none hscan] at hin
        cases hin
      · obtain ⟨hwr, hword, hat⟩ := Quoted.scan_eq_some hscan
        have hw0 : 0 ∉ w := fun h0 => hs0 (hwr ▸ List.mem_append_left r h0)
        have hr0 : 0 ∉ r := fun h0 => hs0 (hwr ▸ List.mem_append_right w h0)
        have hlt := length_scan_lt hne hhead hscan
        have hpointed := pointed_round hne hb hhead hscan
        rw [inside_blanks hb, inside_scan hscan] at hin
        rw [hpointed, List.length_cons] at hcap
        obtain ⟨tail, ps, hloop, hstr, hend⟩ := ih r.length (by omega) fuel
          (d ++ List.replicate b.length 0 ++ w) hr0 (args ++ [d.length + b.length]) hin
          (by rw [List.length_append, List.length_singleton]; omega) (by omega) rfl
        refine ⟨List.replicate b.length 0 ++ w ++ tail, (d.length + b.length) :: ps, ?_, ?_, ?_⟩
        · rw [splitLoop_round cap fuel d hs hne hb hhead, if_pos (by omega), hscan]
          simpa only [Option.elim_some, List.append_assoc, List.singleton_append] using hloop
        · rw [List.map_cons, hpointed]
          have hdrop : (d ++ (List.replicate b.length 0 ++ w ++ tail) ++ [0]).drop
              (d.length + b.length) = w ++ (tail ++ [0]) := by
            rw [← List.append_assoc, ← List.append_assoc, List.append_assoc _ w,
              List.append_assoc _ (w ++ tail), List.append_assoc w]
            exact List.drop_left' (by simp)
          rw [hdrop, cStr_append hw0 (hend hat)]
          simpa only [List.append_assoc] using congrArg (w :: ·) hstr
        · intro hsep
          rcases b with _ | ⟨c, b⟩
          · rcases s with _ | ⟨c, s⟩
            · exact absurd rfl hne
            · exact absurd ((hhead c rfl).symm.trans (hsep c rfl)) Bool.false_ne_true
          · rfl

/-- With quotes left open or too little room the loop ends with a fault. -/
theorem splitLoop_error (cap fuel : ℕ) (d : Str) {s : Str} (hs : 0 ∉ s) (args : List ℕ)
    (hargs : args.length ≤ cap)
    (h : Quoted.inside isQuote false s = true ∨ cap < args.length + (pointed s).length)
    (hfuel : s.length < fuel) :
    ∃ e, splitLoop cap fuel (here d (s ++ [0]) args false) = .error e ∧ e ≠ .endless := by
  induction hn : s.length using Nat.strong_induction_on generalizing fuel d s args with
  | _ n ih =>
    obtain ⟨fuel, rfl⟩ : ∃ n, fuel = n + 1 := ⟨fuel - 1, by omega⟩
    by_cases hne : s = []
    · subst hne
      rcases h with h | h
      · cases h
      · exact absurd h (by simpa [pointed] using hargs)
    · obtain ⟨b, s, rfl, hb, hhead⟩ := exists_blanks s
      rw [splitLoop_round cap fuel d hs hne hb hhead]
      by_cases hroom : args.length < cap
      · rw [if_pos hroom]
        rcases hscan : Quoted.scan isBlank isQuote false s with _ | ⟨w, r⟩
        · exact ⟨.overrun, rfl, by decide⟩
        · obtain ⟨hwr, -, -⟩ := Quoted.scan_eq_some hscan
          have hr0 : 0 ∉ r := fun h0 =>
            hs (List.mem_append_right b (hwr ▸ List.mem_append_right w h0))
          have hlt := length_scan_lt hne hhead hscan
          rw [inside_blanks hb, inside_scan hscan, pointed_round hne hb hhead hscan,
            List.length_cons] at h
          have hlen : (args ++ [d.length + b.length]).length = args.length + 1 := by simp
          exact ih r.length (by omega) fuel _ hr0 _ (by omega)
            (h.imp_right fun h => by rw [hlen]; omega) (by omega) rfl
      · exact ⟨.overflow, by rw [if_neg hroom], by decide⟩

end ArgState

/-- With closed quotes and room for the strings the loop gets to the end of the command. -/
theorem argSplit_of_le {cap : ℕ} {cmd : Str} (heven : EvenQuotes cmd)
    (hcap : (pointed (cStr cmd)).length ≤ cap) :
    ∃ st, st.argv = pointed (cStr cmd) ∧ st.args.length = (pointed (cStr cmd)).length ∧
      argSplit cap (strdup cmd) = if st.args.length < cap then pure st else .error .overflow := by
  obtain ⟨tail, ps, hloop, hstr, -⟩ := ArgState.splitLoop_ok cap ((strdup cmd).length + 1) []
    (zero_not_mem_cStr cmd) [] ((Quoted.inside_eq_false_iff _).mpr heven) (by simpa using hcap)
    (by simp only [strdup, List.length_append]; omega)
  refine ⟨ArgState.here ([] ++ tail) [0] ([] ++ ps) false, ?_, ?_, ?_⟩
  · simpa only [ArgState.argv, ArgState.here, List.nil_append] using hstr
  · rw [← hstr, List.length_map]
    rfl
  · unfold argSplit
    change (ArgState.splitLoop cap _ (ArgState.here [] (cStr cmd ++ [0]) [] false) >>= _) = _
    rw [hloop]
    rfl

/-- With room for the `NULL` as well the strings are what `execvp` gets. -/
theorem argSplit_ok {cap : ℕ} {cmd : Str} (heven : EvenQuotes cmd)
    (hcap : (pointed (cStr cmd)).length < cap) :
    ∃ st, argSplit cap (strdup cmd) = .ok st ∧ st.argv = pointed (cStr cmd) := by
  obtain ⟨st, hargv, hlen, hrun⟩ := argSplit_of_le heven hcap.le
  exact ⟨st, by rw [hrun, if_pos (by omega)]; rfl, hargv⟩

/-- A run that goes wrong ends too: with a fault. -/
theorem argSplit_error {cap : ℕ} {cmd : Str}
    (h : ¬(EvenQuotes cmd ∧ (pointed (cStr cmd)).length < cap)) :
    ∃ e, argSplit cap (strdup cmd) = .error e ∧ e ≠ .endless := by
  by_cases hfull : EvenQuotes cmd ∧ (pointed (cStr cmd)).length = cap
  · obtain ⟨st, -, hlen, hrun⟩ := argSplit_of_le hfull.1 hfull.2.le
    exact ⟨.overflow, by rw [hrun, if_neg (by omega)], by decide⟩
  · have hcause : Quoted.inside isQuote false (cStr cmd) = true ∨
        cap < 0 + (pointed (cStr cmd)).length := by
      by_cases heven : EvenQuotes cmd
      · have hroom : ¬(pointed (cStr cmd)).length < cap := fun hlt => h ⟨heven, hlt⟩
        have hne : (pointed (cStr cmd)).length ≠ cap := fun he => hfull ⟨heven, he⟩
        exact Or.inr (by omega)
      · rw [← Bool.not_eq_false, Quoted.inside_eq_false_iff]
        exact Or.inl heven
    obtain ⟨e, he, hne⟩ := ArgState.splitLoop_error cap ((strdup cmd).length + 1) []
      (zero_not_mem_cStr cmd) [] (Nat.zero_le cap) hcause
      (by simp only [strdup, List.length_append]; omega)
    refine ⟨e, ?_, hne⟩
    unfold argSplit
    change (ArgState.splitLoop cap _ (ArgState.here [] (cStr cmd ++ [0]) [] false) >>= _) = _
    rw [he]
    rfl

theorem pointed_cStr (cmd : Str) :
    pointed (cStr cmd) = commandWords cmd ++ if TrailingBlank cmd then [[]] else [] := rfl

/-! ## When a command is split well -/

/-- `arg_split` ends within its buffer and its array when the quotes of the command are closed and
its words, the empty string after a blank at its end and the `NULL` fit into the array. -/
theorem argSplit_ok_iff (cmd : Str) :
    (∃ st, argSplit argsSize (strdup cmd) = .ok st) ↔
      EvenQuotes cmd ∧
        (commandWords cmd).length + (if TrailingBlank cmd then 1 else 0) + 1 ≤ 256 := by
  have hlen : (pointed (cStr cmd)).length =
      (commandWords cmd).length + if TrailingBlank cmd then 1 else 0 := by
    rw [pointed_cStr, List.length_append]
    split <;> rfl
  rw [Nat.succ_le_iff, ← hlen]
  constructor
  · rintro ⟨st, hst⟩
    by_contra h
    obtain ⟨e, he, -⟩ := argSplit_error (show ¬(_ ∧ _ < argsSize) from h)
    rw [hst] at he
    cases he
  · rintro ⟨heven, hcap⟩
    obtain ⟨st, hst, -⟩ := argSplit_ok heven (show _ < argsSize from hcap)
    exact ⟨st, hst⟩

/-- Inside open quotes the word loop passes the terminator. -/
theorem argSplit_open_quote :
    argSplit argsSize (strdup (str "echo \"a")) = .error .overrun := by
  rfl

/-- A command with closed quotes and fewer than 256 words is split into its words when it does not
end with a blank or a tab. -/
theorem argSplit_words_iff (cmd : Str) (heven : EvenQuotes cmd)
    (hwords : (commandWords cmd).length < 256) :
    (∃ st, argSplit argsSize (strdup cmd) = .ok st ∧ st.argv = commandWords cmd) ↔
      ¬TrailingBlank cmd := by
  constructor
  · rintro ⟨st, hst, hargv⟩ hblank
    by_cases hroom : (pointed (cStr cmd)).length < argsSize
    · obtain ⟨st', hst', hargv'⟩ := argSplit_ok heven hroom
      rw [hst] at hst'
      cases hst'
      rw [hargv, pointed_cStr, if_pos hblank] at hargv'
      exact List.cons_ne_nil _ _ (List.self_eq_append_right.mp hargv')
    · have hfull : ¬(EvenQuotes cmd ∧ (pointed (cStr cmd)).length < argsSize) :=
        fun h => hroom h.2
      obtain ⟨e, he, -⟩ := argSplit_error hfull
      rw [hst] at he
      cases he
  · intro hblank
    have hpointed : pointed (cStr cmd) = commandWords cmd := by
      rw [pointed_cStr, if_neg hblank, List.append_nil]
    have hroom : (pointed (cStr cmd)).length < argsSize := by
      rw [hpointed]
      exact hwords
    obtain ⟨st, hst, hargv⟩ := argSplit_ok heven hroom
    exact ⟨st, hst, hargv.trans hpointed⟩

theorem argSplit_words_quoted :
    ∃ st, argSplit argsSize (strdup (str " ls \"a b\"")) = .ok st ∧
      st.argv = commandWords (str " ls \"a b\"") :=
  (argSplit_words_iff (str " ls \"a b\"") (by decide) (by decide)).mpr (by decide)

/-- A blank at the end makes an empty argument. -/
theorem argSplit_trailing_blank :
    EvenQuotes (str "ls ") ∧ (commandWords (str "ls ")).length < 256 ∧
      (argSplit argsSize (strdup (str "ls "))).toOption.map ArgState.argv =
        some [str "ls", []] ∧ commandWords (str "ls ") = [str "ls"] := by
  decide

end Peter
