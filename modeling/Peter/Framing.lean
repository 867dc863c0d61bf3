import Peter.Socket

/-!
# Where a message ends

`read_more` looks for a `>` or a line feed after every `recv`, so what it takes for the whole message
depends on where the bytes were split.  `read_oneLine_iff` says for which splittings it is the
whole command: those that do not break off inside it behind a `>` of it.
-/

namespace Peter

/-! ## The backward scan -/

/-- The bytes `read_more` stops at. -/
def IsEnd (c : UInt8) : Prop := c = 62 ∨ c = 10

theorem scan_eq_some {buf : Str} {n pos : ℕ} (h : scan buf n = some pos) :
    1 ≤ pos ∧ pos ≤ n ∧ (∃ c, buf[pos]? = some c ∧ IsEnd c) ∧
      ∀ i, pos < i → i ≤ n → ∀ c, buf[i]? = some c → ¬IsEnd c := by
  induction n with
  | zero => cases h
  | succ n ih =>
    rw [scan] at h
    split_ifs at h with hend
    · cases h
      refine ⟨by omega, le_rfl, ?_, fun i hi hi' => by omega⟩
      rcases hend with hc | hc
      · exact ⟨_, hc, .inl rfl⟩
      · exact ⟨_, hc, .inr rfl⟩
    · obtain ⟨h1, hn, hex, hlast⟩ := ih h
      refine ⟨h1, by omega, hex, fun i hi hi' c hc => ?_⟩
      by_cases he : i = n + 1
      · subst he
        rintro (rfl | rfl)
        · exact hend (.inl hc)
        · exact hend (.inr hc)
      · exact hlast i hi (by omega) c hc

theorem scan_eq_none {buf : Str} {n : ℕ} :
    scan buf n = none ↔ ∀ i, 1 ≤ i → i ≤ n → ∀ c, buf[i]? = some c → ¬IsEnd c := by
  induction n with
  | zero => simp [scan]; omega
  | succ n ih =>
    rw [scan]
    split_ifs with hend
    · refine iff_of_false (by simp) fun hall => ?_
      rcases hend with hc | hc
      · exact hall (n + 1) (by omega) le_rfl _ hc (.inl rfl)
      · exact hall (n + 1) (by omega) le_rfl _ hc (.inr rfl)
    · rw [ih]
      constructor
      · intro hall i hi hi' c hc
        by_cases he : i = n + 1
        · subst he
          rintro (rfl | rfl)
          · exact hend (.inl hc)
          · exact hend (.inr hc)
        · exact hall i hi (by omega) c hc
      · exact fun hall i hi hi' => hall i hi (by omega)

/-- The scan stops at a byte with no other one behind it. -/
theorem scan_eq_of_last {buf : Str} {pos : ℕ} {c : UInt8} (h1 : 1 ≤ pos)
    (hpos : buf[pos]? = some c) (hend : IsEnd c)
    (hlast : ∀ i, pos < i → ∀ c, buf[i]? = some c → ¬IsEnd c) :
    scan buf buf.length = some pos := by
  obtain ⟨hlt, -⟩ := List.getElem?_eq_some_iff.1 hpos
  cases h : scan buf buf.length with
  | none => exact absurd hend (scan_eq_none.1 h pos h1 (by omega) c hpos)
  | some q =>
    obtain ⟨hq1, hqn, ⟨d, hd, hde⟩, hqlast⟩ := scan_eq_some h
    rcases lt_trichotomy q pos with hlt | heq | hgt
    · exact absurd hend (hqlast pos hlt (by omega) c hpos)
    · rw [heq]
    · exact absurd hde (hlast q hgt d hd)

theorem length_upTo_le (buf : Str) (pos : ℕ) : (upTo buf pos).length ≤ buf.length := by
  unfold upTo
  split_ifs
  · exact List.length_take_le' ..
  · exact List.length_take_le' ..

/-! ## One command -/

/-- The bytes of some `recv` results. -/
def received (cs : List Chunk) : Str := cs.flatMap Chunk.bytes

/-- What the reader sees of a well-formed command on one line that fits the buffer with its line
feed: the first byte is a `<` or a blank, the last one a `>`. -/
structure OneLine (m : Str) : Prop where
  head : m.head? ≠ some 62
  getLast : m.getLast? = some 62
  lineFeed : 10 ∉ m
  nul : 0 ∉ m
  fits : m.length + 1 < bufSize

/-- No `recv` result ends inside the command behind a `>` of it. -/
def Unbroken (m : Str) (cs : List Chunk) : Prop :=
  ∀ pre, pre <+: cs → (received pre).length < m.length → 62 ∉ received pre

namespace OneLine

variable {m : Str}

theorem getElem_length_pred (hm : OneLine m) : m[m.length - 1]? = some 62 := by
  rw [← List.getLast?_eq_getElem?]
  exact hm.getLast

theorem two_le_length (hm : OneLine m) : 2 ≤ m.length := by
  by_contra hlt
  have hlast := hm.getElem_length_pred
  obtain ⟨hlen, -⟩ := List.getElem?_eq_some_iff.1 hlast
  rw [show m.length - 1 = 0 by omega, ← List.head?_eq_getElem?] at hlast
  exact hm.head hlast

/-- Behind the last `>` the scan finds nothing to stop at. -/
theorem scan_self (hm : OneLine m) : scan m m.length = some (m.length - 1) := by
  have h2 := hm.two_le_length
  apply scan_eq_of_last (by omega) hm.getElem_length_pred (.inl rfl)
  intro i hi c hc
  obtain ⟨hi', -⟩ := List.getElem?_eq_some_iff.1 hc
  omega

theorem scan_lineFeed (hm : OneLine m) :
    scan (m ++ [10]) (m ++ [10]).length = some m.length := by
  have h2 := hm.two_le_length
  have hfeed : (m ++ [10])[m.length]? = some 10 := by simp
  apply scan_eq_of_last (by omega) hfeed (.inr rfl)
  intro i hi c hc
  obtain ⟨hi', -⟩ := List.getElem?_eq_some_iff.1 hc
  rw [List.length_append, List.length_singleton] at hi'
  omega

theorem upTo_self (hm : OneLine m) : upTo m (m.length - 1) = m := by
  have h2 := hm.two_le_length
  unfold upTo
  rw [hm.getElem_length_pred, if_neg (by decide), Nat.sub_add_cancel (by omega), List.take_length]

theorem upTo_lineFeed (m : Str) : upTo (m ++ [10]) m.length = m := by
  unfold upTo
  rw [if_pos (by simp), List.take_left]

/-- A part of the command is a message to the reader if it has a `>`. -/
theorem scan_isSome_iff (hm : OneLine m) {p : Str} (hp : p <+: m) :
    (scan p p.length).isSome ↔ 62 ∈ p := by
  constructor
  · intro h
    obtain ⟨pos, hpos⟩ := Option.isSome_iff_exists.1 h
    obtain ⟨-, -, ⟨c, hc, rfl | rfl⟩, -⟩ := scan_eq_some hpos
    · exact List.mem_of_getElem? hc
    · exact absurd (hp.subset (List.mem_of_getElem? hc)) hm.lineFeed
  · intro hmem
    obtain ⟨i, hi, hget⟩ := List.getElem_of_mem hmem
    have hi0 : i ≠ 0 := by
      rintro rfl
      apply hm.head
      obtain ⟨t, rfl⟩ := hp
      rw [List.head?_eq_getElem?, List.getElem?_append_left hi, List.getElem?_eq_getElem hi, hget]
    rw [Option.isSome_iff_ne_none]
    intro hnone
    exact scan_eq_none.1 hnone i (by omega) hi.le _ (List.getElem?_eq_getElem hi)
      (.inl hget)

/-- The loop stops where the scan does. -/
theorem recvLoop_of_scan {closed : Bool} {buf : Str} {c : Chunk} {cs : List Chunk} {pos : ℕ}
    (hsize : (buf ++ c.bytes).length < bufSize)
    (hscan : scan (buf ++ c.bytes) (buf ++ c.bytes).length = some pos) :
    recvLoop closed buf (c :: cs) = .text (cStr (upTo (buf ++ c.bytes) pos)) ⟨cs, closed⟩ := by
  rw [recvLoop, if_neg (by omega)]
  simp only [hscan]

/-- When the scan stops inside the command, what is left is too short. -/
theorem recvLoop_ne_of_mem (hm : OneLine m) {closed : Bool} {buf : Str} {c : Chunk}
    {cs : List Chunk} (hpre : buf ++ c.bytes <+: m) (hshort : (buf ++ c.bytes).length < m.length)
    (hgt : 62 ∈ buf ++ c.bytes) : ¬∃ rest, recvLoop closed buf (c :: cs) = .text m rest := by
  have hfits := hm.fits
  obtain ⟨pos, hpos⟩ := Option.isSome_iff_exists.1 ((hm.scan_isSome_iff hpre).2 hgt)
  rintro ⟨rest, h⟩
  rw [recvLoop_of_scan (by omega) hpos] at h
  injection h with htext
  have h1 := length_cStr_le (upTo (buf ++ c.bytes) pos)
  have h2 := length_upTo_le (buf ++ c.bytes) pos
  rw [htext] at h1
  omega

/-- When the command is there, with its line feed or without, it is the text. -/
theorem recvLoop_eq_of_le (hm : OneLine m) {closed : Bool} {buf : Str} {c : Chunk}
    {cs : List Chunk} (hpre : buf ++ c.bytes <+: m ++ [10])
    (hsize : (buf ++ c.bytes).length < bufSize) (hlong : m.length ≤ (buf ++ c.bytes).length) :
    recvLoop closed buf (c :: cs) = .text m ⟨cs, closed⟩ := by
  rcases List.prefix_concat_iff.1 hpre with heq | hprem
  · have hscan := hm.scan_lineFeed
    rw [← heq] at hscan
    rw [recvLoop_of_scan hsize hscan, heq, upTo_lineFeed, cStr_eq_self hm.nul]
  · have hself := hprem.eq_of_length_le hlong
    have hscan := hm.scan_self
    rw [← hself] at hscan
    rw [recvLoop_of_scan hsize hscan, hself, hm.upTo_self, cStr_eq_self hm.nul]

/-- What is said about all first `recv` results is said about those after the first one. -/
theorem forall_received_cons {buf : Str} {c : Chunk} {cs : List Chunk} (hno : 62 ∉ buf) :
    (∀ pre, pre <+: c :: cs → (buf ++ received pre).length < m.length →
        62 ∉ buf ++ received pre) ↔
      ∀ pre, pre <+: cs → (buf ++ c.bytes ++ received pre).length < m.length →
        62 ∉ buf ++ c.bytes ++ received pre := by
  constructor
  · intro h pre hp
    rw [List.append_assoc]
    exact h (c :: pre) (List.cons_prefix_cons.2 ⟨rfl, hp⟩)
  · intro h pre hp
    rcases List.prefix_cons_iff.1 hp with rfl | ⟨t, rfl, ht⟩
    · intro _
      simpa [received] using hno
    · have := h t ht
      rwa [List.append_assoc] at this

/-- The loop with a part of the command without a `>` in the buffer. -/
theorem recvLoop_iff (hm : OneLine m) (closed : Bool) {buf : Str} {cs : List Chunk}
    (hbuf : buf ++ received cs = m ++ [10]) (hlt : buf.length < m.length) (hno : 62 ∉ buf) :
    (∃ rest, recvLoop closed buf cs = .text m rest) ↔
      ∀ pre, pre <+: cs → (buf ++ received pre).length < m.length → 62 ∉ buf ++ received pre := by
  induction cs generalizing buf with
  | nil =>
    have := congrArg List.length hbuf
    simp [received] at this
    omega
  | cons c cs ih =>
    have hrest : buf ++ c.bytes ++ received cs = m ++ [10] := by
      rw [List.append_assoc]
      exact hbuf
    have hpre : buf ++ c.bytes <+: m ++ [10] := ⟨_, hrest⟩
    have hsize : (buf ++ c.bytes).length < bufSize := by
      have h1 := hpre.length_le
      have h2 := hm.fits
      rw [@List.length_append _ m, List.length_singleton] at h1
      omega
    rw [forall_received_cons hno]
    by_cases hshort : (buf ++ c.bytes).length < m.length
    · have hprem : buf ++ c.bytes <+: m :=
        List.prefix_of_prefix_length_le hpre (List.prefix_append _ _) hshort.le
      by_cases hgt : 62 ∈ buf ++ c.bytes
      · refine iff_of_false (hm.recvLoop_ne_of_mem hprem hshort hgt) fun h => ?_
        exact h [] List.nil_prefix (by simpa [received] using hshort)
          (by simpa [received] using hgt)
      · have hnone : scan (buf ++ c.bytes) (buf ++ c.bytes).length = none := by
          rw [← Option.not_isSome_iff_eq_none, hm.scan_isSome_iff hprem]
          exact hgt
        have hstep : recvLoop closed buf (c :: cs) = recvLoop closed (buf ++ c.bytes) cs := by
          rw [recvLoop, if_neg (by omega)]
          simp only [hnone]
        rw [hstep]
        exact ih hrest hshort hgt
    · refine iff_of_true ⟨_, hm.recvLoop_eq_of_le hpre hsize (by omega)⟩ fun pre _ hlen => ?_
      rw [List.length_append] at hlen
      omega

end OneLine

/-- `read_more` leaves a command in the buffer, whatever is split where, unless a `recv` result
ends inside the command behind a `>` of it. -/
theorem read_oneLine_iff {m : Str} (hm : OneLine m) {cs : List Chunk}
    (hcs : received cs = m ++ [10]) (closed : Bool) :
    (∃ rest, (Input.mk cs closed).read = .text m rest) ↔ Unbroken m cs := by
  have h2 := hm.two_le_length
  have hnil : ([] : Str).length < m.length := by
    rw [List.length_nil]
    omega
  exact hm.recvLoop_iff closed hcs hnil (by simp)

/-- `<scheduler><quit /></scheduler>`, split behind its first tag. -/
def brokenQuit : List Chunk :=
  [⟨str "<scheduler>", by decide, by decide⟩, ⟨str "<quit /></scheduler>\n", by decide, by decide⟩]

/-- `<quit />`, split before its `>`. -/
def unbrokenQuit : List Chunk :=
  [⟨str "<quit /", by decide, by decide⟩, ⟨str ">\n", by decide, by decide⟩]

theorem read_oneLine_iff_quit :
    (∃ rest, (Input.mk unbrokenQuit true).read = .text (str "<quit />") rest) ↔
      Unbroken (str "<quit />") unbrokenQuit :=
  read_oneLine_iff ⟨by decide, by decide, by decide, by decide, by decide⟩ (by decide) true

theorem read_oneLine_fails : ¬∀ (m : Str) (cs : List Chunk) (closed : Bool), OneLine m →
    received cs = m ++ [10] → ∃ rest, (Input.mk cs closed).read = .text m rest := by
  intro h
  have hm : OneLine (str "<scheduler><quit /></scheduler>") :=
    ⟨by decide, by decide, by decide, by decide, by decide⟩
  obtain ⟨rest, hrest⟩ := h _ brokenQuit false hm (by decide)
  have hread : (Input.mk brokenQuit false).read =
      .text (str "<scheduler>") ⟨brokenQuit.tail, false⟩ := by rfl
  rw [hread] at hrest
  injection hrest with htext
  exact absurd htext (by decide)

end Peter
