import Peter.Framing

/-!
# The receive buffer

`read_data` and `read_more` give every `recv` room for `buf_size-2` bytes, wherever `buf_pos` is,
and put the terminator behind `buf_pos` in the end.  `recvCalls` and `lastPos` are the places the
loop has for them, with `beyond` for what the byte behind the buffer holds; `recvLoop_cases` says
that `recvLoop` goes the same way, and `buffer_safe_iff` when all of it stays in the buffer.
-/

namespace Peter

/-! ## The places of the loop -/

/-- Where the loop looking for a `>` or a line feed stops, from `buf_pos` down.  A buffer that is
full is read one byte behind its end. -/
def scanAt (beyond : UInt8) (buf : Str) : Option ℕ :=
  if bufSize ≤ buf.length ∧ (beyond = 62 ∨ beyond = 10) then some buf.length
  else scan buf buf.length

/-- `buf_pos` at each call of `recv`. -/
def recvCalls (beyond : UInt8) : Str → List Chunk → List ℕ
  | buf, [] => [buf.length]
  | buf, c :: cs =>
    buf.length :: (scanAt beyond (buf ++ c.bytes)).elim (recvCalls beyond (buf ++ c.bytes) cs)
      fun _ => []

/-- `buf_pos` when the loop has ended. -/
def lastPos (beyond : UInt8) (closed : Bool) : Str → List Chunk → Option ℕ
  | buf, [] => if closed then some buf.length else none
  | buf, c :: cs =>
    (scanAt beyond (buf ++ c.bytes)).elim (lastPos beyond closed (buf ++ c.bytes) cs) some

/-- As long as no access is outside the buffer, `recvLoop` waits where the loop does not end, and
has the text up to the place where it ends. -/
theorem recvLoop_cases (beyond : UInt8) (closed : Bool) (buf : Str) (cs : List Chunk) :
    recvLoop closed buf cs = .overrun ∨
      lastPos beyond closed buf cs = none ∧ recvLoop closed buf cs = .waiting ∨
      ∃ pos pre rest, cs = pre ++ rest ∧ lastPos beyond closed buf cs = some pos ∧
        recvLoop closed buf cs = .text (cStr (upTo (buf ++ received pre) pos)) ⟨rest, closed⟩ := by
  induction cs generalizing buf with
  | nil =>
    rw [recvLoop, lastPos]
    cases closed with
    | false => exact Or.inr (Or.inl ⟨rfl, rfl⟩)
    | true =>
      by_cases hfit : buf.length + 1 < bufSize
      · refine Or.inr (Or.inr ⟨buf.length, [], [], rfl, rfl, ?_⟩)
        have hup : upTo buf buf.length = buf := by
          unfold upTo
          rw [if_neg (by simp), List.take_of_length_le (Nat.le_succ _)]
        simp [hfit, received, hup]
      · simp [hfit]
  | cons c cs ih =>
    rw [recvLoop, lastPos]
    by_cases hfull : bufSize ≤ (buf ++ c.bytes).length
    · exact Or.inl (if_pos hfull)
    · have hscan : scanAt beyond (buf ++ c.bytes) = scan (buf ++ c.bytes) (buf ++ c.bytes).length :=
        if_neg fun h => hfull h.1
      rw [if_neg hfull, hscan]
      cases hs : scan (buf ++ c.bytes) (buf ++ c.bytes).length with
      | some pos =>
        refine Or.inr (Or.inr ⟨pos, [c], cs, rfl, rfl, ?_⟩)
        simp [received]
      | none =>
        rcases ih (buf ++ c.bytes) with h | h | ⟨pos, pre, rest, hcs, hpos, hloop⟩
        · exact Or.inl h
        · exact Or.inr (Or.inl h)
        · refine Or.inr (Or.inr ⟨pos, c :: pre, rest, by rw [hcs]; rfl, hpos, ?_⟩)
          simpa [received] using hloop

/-! ## When they are in the buffer -/

/-- Behind its first byte the text has no byte the loop stops at. -/
def NoEnd (s : Str) : Prop := ∀ i, 1 ≤ i → ∀ c, s[i]? = some c → ¬IsEnd c

theorem scan_eq_none_iff_noEnd (buf : Str) : scan buf buf.length = none ↔ NoEnd buf := by
  rw [scan_eq_none]
  constructor
  · intro h i hi c hc
    exact h i hi (List.getElem?_eq_some_iff.mp hc).1.le c hc
  · exact fun h i hi _ => h i hi

theorem NoEnd.of_append {s t : Str} (h : NoEnd (s ++ t)) : NoEnd s := by
  intro i hi c hc
  apply h i hi
  rw [List.getElem?_append_left (List.getElem?_eq_some_iff.mp hc).1]
  exact hc

/-- Whatever the loop stops at when this text is in the buffer, the terminator behind it is inside:
a text that fills the buffer has no `>` and no line feed at its last place or behind it. -/
def TerminatorFits (beyond : UInt8) (buf : Str) : Prop :=
  buf.length = bufSize → ¬IsEnd beyond ∧ ∀ c ∈ buf.getLast?, ¬IsEnd c

/-- All of the loop is in the buffer. -/
def BufferSafe (beyond : UInt8) (closed : Bool) (buf : Str) (cs : List Chunk) : Prop :=
  (∀ p ∈ recvCalls beyond buf cs, p + (bufSize - 2) ≤ bufSize) ∧
    ∀ p ∈ lastPos beyond closed buf cs, p + 1 < bufSize

/-- As long as no `>` and no line feed has come, at most two bytes have come, and the `recv` after
them does not fill the buffer up to one. -/
def Trickles (beyond : UInt8) (buf : Str) (cs : List Chunk) : Prop :=
  ∀ pre, pre <+: cs → NoEnd (buf ++ received pre) → (buf ++ received pre).length ≤ 2 ∧
    ∀ c, pre ++ [c] <+: cs → TerminatorFits beyond (buf ++ received (pre ++ [c]))

theorem trickles_cons_iff (beyond : UInt8) {buf : Str} (hbuf : NoEnd buf) (c : Chunk)
    (cs : List Chunk) :
    Trickles beyond buf (c :: cs) ↔ buf.length ≤ 2 ∧ TerminatorFits beyond (buf ++ c.bytes) ∧
      Trickles beyond (buf ++ c.bytes) cs := by
  have hreceived : ∀ pre : List Chunk, buf ++ received (c :: pre) =
      buf ++ c.bytes ++ received pre := fun pre => by simp [received]
  constructor
  · intro h
    obtain ⟨hlen, hfits⟩ := h [] (List.nil_prefix) (by simpa [received] using hbuf)
    refine ⟨by simpa [received] using hlen, ?_, ?_⟩
    · simpa [received] using hfits c (by simp)
    · intro pre hpre hno
      have hcons := h (c :: pre) (List.cons_prefix_cons.mpr ⟨rfl, hpre⟩)
        (by rw [hreceived]; exact hno)
      rw [hreceived] at hcons
      refine ⟨hcons.1, fun d hd => ?_⟩
      have hfits' := hcons.2 d (List.cons_prefix_cons.mpr ⟨rfl, hd⟩)
      rwa [List.cons_append, hreceived] at hfits'
  · rintro ⟨hlen, hfits, hrest⟩ pre hpre hno
    rcases pre with _ | ⟨d, pre⟩
    · refine ⟨by simpa [received] using hlen, fun d hd => ?_⟩
      rw [List.nil_append, List.cons_prefix_cons] at hd
      rw [hd.1]
      simpa [received] using hfits
    · obtain ⟨rfl, hpre'⟩ := List.cons_prefix_cons.mp hpre
      rw [hreceived] at hno ⊢
      obtain ⟨hlen', hfits'⟩ := hrest pre hpre' hno
      refine ⟨hlen', fun e he => ?_⟩
      rw [List.cons_append, List.cons_prefix_cons] at he
      rw [List.cons_append, hreceived]
      exact hfits' e he.2

theorem scanAt_of_not_isEnd {beyond : UInt8} (h : ¬IsEnd beyond) (buf : Str) :
    scanAt beyond buf = scan buf buf.length := if_neg fun hfull => h hfull.2

theorem scanAt_of_lt {buf : Str} (h : buf.length < bufSize) (beyond : UInt8) :
    scanAt beyond buf = scan buf buf.length := if_neg fun hfull => by omega

/-- Where the loop stops in a buffer, the terminator is inside when it fits. -/
theorem lastPos_fits_iff {beyond : UInt8} {buf : Str} {pos : ℕ} (hlen : buf.length ≤ bufSize)
    (h : scanAt beyond buf = some pos) : pos + 1 < bufSize ↔ TerminatorFits beyond buf := by
  by_cases hfull : buf.length = bufSize
  · by_cases hbeyond : IsEnd beyond
    · unfold scanAt at h
      rw [if_pos ⟨hfull.ge, hbeyond⟩] at h
      cases h
      exact iff_of_false (by omega) fun hfits => (hfits hfull).1 hbeyond
    · rw [scanAt_of_not_isEnd hbeyond] at h
      obtain ⟨-, -, ⟨c, hc, hend⟩, hlast⟩ := scan_eq_some h
      have hpos : pos < buf.length := (List.getElem?_eq_some_iff.mp hc).1
      have hsize : bufSize = 10240 := rfl
      constructor
      · intro hlt
        refine fun _ => ⟨hbeyond, fun d hd => ?_⟩
        rw [List.getLast?_eq_getElem?] at hd
        exact hlast (buf.length - 1) (by omega) (by omega) d hd
      · intro hfits
        by_contra hge
        have hpos' : pos = buf.length - 1 := by omega
        rw [hpos', ← List.getLast?_eq_getElem?] at hc
        exact (hfits hfull).2 c hc hend
  · have hlt : buf.length < bufSize := by omega
    rw [scanAt_of_lt hlt] at h
    obtain ⟨-, -, ⟨c, hc, -⟩, -⟩ := scan_eq_some h
    have hpos : pos < buf.length := (List.getElem?_eq_some_iff.mp hc).1
    exact iff_of_true (by omega) fun hfull' => absurd hfull' hfull

theorem not_noEnd_of_scanAt {beyond : UInt8} {buf : Str} {pos : ℕ}
    (h : scanAt beyond buf = some pos) (hfits : TerminatorFits beyond buf)
    (hlen : buf.length ≤ bufSize) : ¬NoEnd buf := by
  rw [← scan_eq_none_iff_noEnd]
  unfold scanAt at h
  by_cases hfull : bufSize ≤ buf.length ∧ (beyond = 62 ∨ beyond = 10)
  · exact absurd hfull.2 (hfits (by omega)).1
  · rw [if_neg hfull] at h
    rw [h]
    exact Option.some_ne_none pos

theorem noEnd_of_scanAt {beyond : UInt8} {buf : Str} (h : scanAt beyond buf = none) :
    NoEnd buf ∧ TerminatorFits beyond buf := by
  unfold scanAt at h
  by_cases hfull : bufSize ≤ buf.length ∧ (beyond = 62 ∨ beyond = 10)
  · rw [if_pos hfull] at h
    cases h
  · rw [if_neg hfull, scan_eq_none_iff_noEnd] at h
    refine ⟨h, fun hlen => ⟨fun hend => hfull ⟨hlen.ge, hend⟩, fun c hc => ?_⟩⟩
    rw [List.getLast?_eq_getElem?] at hc
    exact h (buf.length - 1) (by rw [hlen]; decide) c hc

/-- The loop stays in the buffer exactly on the input that trickles. -/
theorem bufferSafe_iff (beyond : UInt8) (closed : Bool) {buf : Str} (hbuf : NoEnd buf)
    (cs : List Chunk) : BufferSafe beyond closed buf cs ↔ Trickles beyond buf cs := by
  have hsize : bufSize = 10240 := rfl
  induction cs generalizing buf with
  | nil =>
    constructor
    · rintro ⟨hcalls, -⟩ pre hpre -
      obtain rfl := List.prefix_nil.mp hpre
      have hcall := hcalls buf.length (by simp [recvCalls])
      refine ⟨by simp [received]; omega, fun c hc => absurd hc (by simp)⟩
    · intro h
      have hlen := (h [] List.nil_prefix (by simpa [received] using hbuf)).1
      simp only [received, List.flatMap_nil, List.append_nil] at hlen
      refine ⟨fun p hp => ?_, fun p hp => ?_⟩
      · obtain rfl : p = buf.length := by simpa [recvCalls] using hp
        omega
      · obtain ⟨-, rfl⟩ : closed = true ∧ buf.length = p := by simpa [lastPos] using hp
        omega
  | cons c cs ih =>
    rw [trickles_cons_iff beyond hbuf]
    unfold BufferSafe
    rw [recvCalls, lastPos, List.forall_mem_cons]
    have hfirst : buf.length + (bufSize - 2) ≤ bufSize ↔ buf.length ≤ 2 := by omega
    rw [hfirst, and_assoc]
    refine and_congr_right fun hlen => ?_
    have hlen' : (buf ++ c.bytes).length ≤ bufSize := by
      have := c.length_le
      rw [List.length_append]
      omega
    cases hs : scanAt beyond (buf ++ c.bytes) with
    | some pos =>
      rw [Option.elim_some, Option.elim_some]
      constructor
      · rintro ⟨-, hlast⟩
        have hfits := (lastPos_fits_iff hlen' hs).mp (hlast pos rfl)
        refine ⟨hfits, fun pre _ hno => ?_⟩
        exact absurd hno.of_append (not_noEnd_of_scanAt hs hfits hlen')
      · rintro ⟨hfits, -⟩
        refine ⟨by simp, fun p hp => ?_⟩
        cases hp
        exact (lastPos_fits_iff hlen' hs).mpr hfits
    | none =>
      obtain ⟨hno, hfits⟩ := noEnd_of_scanAt hs
      rw [Option.elim_none, Option.elim_none]
      exact (ih hno).trans (iff_and_self.mpr fun _ => hfits)

/-- For every sequence of results of `recv`: a read stays in the buffer exactly when every `recv`
that leaves the loop without a `>` or a line feed leaves at most two bytes in the buffer, and none
fills the buffer up to one of these. -/
theorem buffer_safe_iff (beyond : UInt8) (input : Input) :
    BufferSafe beyond input.closed [] input.chunks ↔ Trickles beyond [] input.chunks :=
  bufferSafe_iff beyond input.closed (fun i _ c hc => by simp at hc) input.chunks

/-- After a first `recv` of three bytes the second one gets room behind the end. -/
theorem buffer_overrun :
    3 ∈ recvCalls 0 [] [⟨str "pcm", by decide, by decide⟩] ∧ ¬3 + (bufSize - 2) ≤ bufSize := by
  decide

end Peter
