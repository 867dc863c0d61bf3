import Peter.Values
import Peter.Xml

/-!
# Cursors over children

`get_first_child` and `get_next_child` of `XMLNode` move the `int` cursor `current_child` of a node
through its vector of children: without an argument, to the children of a name and to those of a
type.  Where a pair of them visits exactly the children it should is said for nodes of every size
(`children_visited_iff`): the first child by name is searched in front of the last child only, and
nothing must be asked about a node without children.
-/

namespace Peter

/-- What ends a search without a result: an index outside the vector, or a cursor that is larger
than an `int`. -/
inductive CursorFault
  | outside
  | overflow
  deriving DecidableEq, Repr

namespace XMLNode

/-- The pointers in `children`: a child, and where it is in the vector. -/
def slots (x : XMLNode) : List (XMLNode × ℕ) := x.children.zipIdx

def isNamed (n : Str) (y : XMLNode) : Bool := y.name = n

/-- `children.size() - 1` as a `size_t`. -/
def lastIndex (size : ℕ) : ℕ :=
  if size = 0 then 18446744073709551615 else min (size - 1) 18446744073709551615

end XMLNode

namespace NodeType

/-- The number of a type. -/
def code : NodeType → ℤ
  | node => 1
  | leaf => 2
  | comment => 3
  | undef => 4

end NodeType

def XMLNode.isOfType (type : ℤ) (y : XMLNode) : Bool := y.nodeType.code = type

section Searches

variable {α : Type*} (p : α → Bool)

/-- `children[current_child]`. -/
def childAt (ys : List α) (c : ℤ) : Except CursorFault α :=
  match ys[toSize c]? with
  | some y => .ok y
  | none => .error .outside

/-- `for (; current_child < bound; current_child++)`, with the return of a child that matches. -/
def forChild (bound : ℕ) (ys : List α) (c : ℤ) : Except CursorFault (Option α × ℤ) :=
  if toSize c < bound then
    match childAt ys c with
    | .error e => .error e
    | .ok y =>
      if p y then .ok (some y, c)
      else if _h : c < 2147483647 then forChild bound ys (c + 1)
      else .error .overflow
  else .ok (none, c)
termination_by (2147483647 - c).toNat

/-- `while (more) { ++current_child; … }`, with the return of a child that matches. -/
def whileChild (more : ℤ → Bool) (ys : List α) (c : ℤ) : Except CursorFault (Option α × ℤ) :=
  if more c then
    if _h : c < 2147483647 then
      match childAt ys (c + 1) with
      | .error e => .error e
      | .ok y => if p y then .ok (some y, c + 1) else whileChild more ys (c + 1)
    else .error .overflow
  else .ok (none, c)
termination_by (2147483647 - c).toNat

/-- `for (++current_child; current_child < bound; current_child++)`. -/
def forNextChild (bound : ℕ) (ys : List α) (c : ℤ) : Except CursorFault (Option α × ℤ) :=
  if c < 2147483647 then forChild p bound ys (c + 1) else .error .overflow

end Searches

namespace XMLNode

/-- `get_first_child()`, with the cursor it leaves. -/
def getFirstChild (x : XMLNode) : Except CursorFault (Option (XMLNode × ℕ) × ℤ) :=
  if x.children.isEmpty then .ok (none, 0)
  else do
    let y ← childAt x.slots 0
    return (some y, 0)

/-- `get_next_child()`, with the cursor it leaves. -/
def getNextChild (x : XMLNode) (c : ℤ) : Except CursorFault (Option (XMLNode × ℕ) × ℤ) :=
  if toSize c < lastIndex x.children.length then
    if c < 2147483647 then do
      let y ← childAt x.slots (c + 1)
      return (some y, c + 1)
    else .error .overflow
  else .ok (none, c)

/-- `get_first_child(const std::string&)`. -/
def getFirstChildNamed (x : XMLNode) (n : Str) : Except CursorFault (Option (XMLNode × ℕ) × ℤ) :=
  forChild (fun y => isNamed n y.1) (lastIndex x.children.length) x.slots 0

/-- `get_next_child(const std::string&)`. -/
def getNextChildNamed (x : XMLNode) (n : Str) (c : ℤ) :
    Except CursorFault (Option (XMLNode × ℕ) × ℤ) :=
  forNextChild (fun y => isNamed n y.1) x.children.length x.slots c

/-- `get_first_child(int)`. -/
def getFirstChildOfType (x : XMLNode) (type : ℤ) :
    Except CursorFault (Option (XMLNode × ℕ) × ℤ) :=
  let nc := toInt (lastIndex x.children.length)
  whileChild (fun y => isOfType type y.1) (fun c => c < nc) x.slots (-1)

/-- `get_next_child(int)`. -/
def getNextChildOfType (x : XMLNode) (type c : ℤ) :
    Except CursorFault (Option (XMLNode × ℕ) × ℤ) :=
  whileChild (fun y => isOfType type y.1)
    (fun c => toSize c < lastIndex x.children.length) x.slots c

end XMLNode

/-! ## Visits -/

section Visits

variable {α : Type*}

/-- What `k` calls that move the cursor on return. -/
def calls (next : ℤ → Except CursorFault (Option α × ℤ)) :
    ℕ → ℤ → Except CursorFault (List (Option α))
  | 0, _ => .ok []
  | k + 1, c => do
    let (y, c) ← next c
    let ys ← calls next k c
    return y :: ys

/-- What a call for the first child and `k` calls for the next one return. -/
def visits (first : Except CursorFault (Option α × ℤ))
    (next : ℤ → Except CursorFault (Option α × ℤ)) (k : ℕ) :
    Except CursorFault (List (Option α)) := do
  let (y, c) ← first
  let ys ← calls next k c
  return y :: ys

/-- The first `k` of the children of a list, one after the other, then `NULL`. -/
def inTurn (ys : List α) (k : ℕ) : List (Option α) := (List.range k).map fun i => ys[i]?

/-- The children of the list are visited, each once and in order, and `NULL` from then on, for `k`
calls after the first. -/
def Enumerates (first : Except CursorFault (Option α × ℤ))
    (next : ℤ → Except CursorFault (Option α × ℤ)) (ys : List α) (k : ℕ) : Prop :=
  visits first next k = .ok (inTurn ys (k + 1))

theorem inTurn_succ (ys : List α) (k : ℕ) : inTurn ys (k + 1) = ys.head? :: inTurn ys.tail k := by
  rw [inTurn, List.range_succ_eq_map, List.map_cons, List.map_map, List.head?_eq_getElem?, inTurn]
  simp only [Function.comp_def, List.getElem?_tail]

variable {first : Except CursorFault (Option α × ℤ)}
  {next : ℤ → Except CursorFault (Option α × ℤ)} {c c' : ℤ} {k : ℕ}
  {o o' : Option α} {os : List (Option α)} {e : CursorFault}

theorem calls_succ : calls next (k + 1) c = visits (next c) next k := rfl

theorem visits_of_ok (h : first = .ok (o', c)) :
    visits first next k = .ok (o :: os) ↔ o' = o ∧ calls next k c = .ok os := by
  rw [visits, h]
  simp only [bind, Except.bind]
  cases calls next k c with
  | error e => simp
  | ok ys => simp [pure, Except.pure]

theorem visits_of_error (h : first = .error e) : visits first next k = .error e := by
  rw [visits, h]
  rfl

theorem calls_of_ok (h : next c = .ok (o', c')) :
    calls next (k + 1) c = .ok (o :: os) ↔ o' = o ∧ calls next k c' = .ok os := visits_of_ok h

theorem calls_of_error (h : next c = .error e) : calls next (k + 1) c = .error e :=
  visits_of_error h

end Visits

/-! ## One search -/

/-- A search `f` that looks at the children of a list one after the other, from `a` on, as far as an
`int` reaches. -/
structure Walks {α : Type*} (f : ℤ → Except CursorFault (Option α × ℤ)) (p : α → Bool)
    (ys : List α) (a : ℕ) : Prop where
  hit : ∀ {j y rest}, a ≤ j → ys.drop j = y :: rest → j < 2147483648 → p y = true →
    f ((j : ℤ) - 1) = .ok (some y, j)
  skip : ∀ {j y rest}, a ≤ j → ys.drop j = y :: rest → j < 2147483648 → p y = false →
    f ((j : ℤ) - 1) = f j
  full : ∀ {j y rest}, a ≤ j → ys.drop j = y :: rest → j = 2147483648 →
    f ((j : ℤ) - 1) = .error .overflow

namespace Walks

variable {α : Type*} {f : ℤ → Except CursorFault (Option α × ℤ)} {p : α → Bool} {ys : List α}
  {a j k : ℕ}

theorem drop_succ_of_drop {y : α} {rest : List α} (h : ys.drop j = y :: rest) :
    ys.drop (j + 1) = rest := by
  rw [← List.drop_drop, h]
  rfl

theorem natCast_succ_sub_one (j : ℕ) : ((j + 1 : ℕ) : ℤ) - 1 = j := by omega

/-- A search finds the first child that matches, or there is none and it comes to the end, or the
cursor is no `int` any more. -/
theorem outcome (hf : Walks f p ys a) (ha : a ≤ j) (hj : j ≤ 2147483648) :
    (∃ u y v, ys.drop j = u ++ y :: v ∧ (∀ z ∈ u, p z = false) ∧ p y = true ∧
        j + u.length < 2147483648 ∧ f ((j : ℤ) - 1) = .ok (some y, (j + u.length : ℕ))) ∨
      ((∀ z ∈ ys.drop j, p z = false) ∧ j + (ys.drop j).length ≤ 2147483648 ∧
        f ((j : ℤ) - 1) = f ((j + (ys.drop j).length : ℕ) - 1)) ∨
      ((∀ z ∈ (ys.drop j).take (2147483648 - j), p z = false) ∧
        2147483648 < j + (ys.drop j).length ∧ f ((j : ℤ) - 1) = .error .overflow) := by
  generalize hrest : ys.drop j = rest
  induction rest generalizing j with
  | nil => exact Or.inr (Or.inl ⟨fun z hz => absurd hz List.not_mem_nil, hj, rfl⟩)
  | cons y rest ih =>
    by_cases hfull : j = 2147483648
    · refine Or.inr (Or.inr ⟨?_, by rw [List.length_cons]; omega, hf.full ha hrest hfull⟩)
      rw [hfull, Nat.sub_self, List.take_zero]
      exact fun z hz => absurd hz List.not_mem_nil
    · have hlt : j < 2147483648 := by omega
      cases hy : p y with
      | true =>
        exact Or.inl ⟨[], y, rest, rfl, fun z hz => absurd hz List.not_mem_nil, hy, hlt,
          hf.hit ha hrest hlt hy⟩
      | false =>
        have hskip := hf.skip ha hrest hlt hy
        have hlen : j + 1 + rest.length = j + (y :: rest).length := by
          rw [List.length_cons]
          omega
        have htake : 2147483648 - j = (2147483648 - (j + 1)) + 1 := by omega
        have hnext := ih (by omega) hlt (drop_succ_of_drop hrest)
        rw [natCast_succ_sub_one] at hnext
        rw [hskip, htake, List.take_succ_cons, ← hlen]
        rcases hnext with
          ⟨u, z, v, hu, hnone, hz, hend, hres⟩ | ⟨hnone, hend, hres⟩ | ⟨hnone, hend, hres⟩
        · refine Or.inl ⟨y :: u, z, v, by rw [hu]; rfl, List.forall_mem_cons.mpr ⟨hy, hnone⟩, hz,
            ?_⟩
          have hu : j + (y :: u).length = j + 1 + u.length := by
            rw [List.length_cons]
            omega
          rw [hu]
          exact ⟨hend, hres⟩
        · exact Or.inr (Or.inl ⟨List.forall_mem_cons.mpr ⟨hy, hnone⟩, hend, hres⟩)
        · exact Or.inr (Or.inr ⟨List.forall_mem_cons.mpr ⟨hy, hnone⟩, hend, hres⟩)

/-- Calls from the cursor before `j` visit the children from there on that match, exactly when the
cursor stays an `int` up to the last that is asked for. -/
theorem calls_iff (hf : Walks f p ys a) (ha : a ≤ j) (hj : j ≤ 2147483648) (hle : j ≤ ys.length) :
    calls f k ((j : ℤ) - 1) = .ok (inTurn ((ys.drop j).filter p) k) ↔
      k ≤ ((ys.drop j).take (2147483648 - j)).countP p ∨
        (ys.drop j).countP p < k ∧ ys.length ≤ 2147483648 ∧
          calls f (k - (ys.drop j).countP p) (ys.length - 1) =
            .ok (inTurn [] (k - (ys.drop j).countP p)) := by
  generalize hrest : ys.drop j = rest
  induction rest generalizing j k with
  | nil =>
    have hlast : j = ys.length := by
      have hlen := congrArg List.length hrest
      rw [List.length_drop, List.length_nil] at hlen
      omega
    rw [List.filter_nil, List.take_nil, List.countP_nil, Nat.sub_zero, hlast]
    rcases Nat.eq_zero_or_pos k with rfl | hk
    · exact ⟨fun _ => Or.inl le_rfl, fun _ => rfl⟩
    · exact ⟨fun h => Or.inr ⟨hk, by omega, h⟩, fun h => (h.resolve_left (by omega)).2.2⟩
  | cons y rest ih =>
    cases k with
    | zero => exact ⟨fun _ => Or.inl (Nat.zero_le _), fun _ => rfl⟩
    | succ k =>
      have hlen := congrArg List.length hrest
      rw [List.length_drop, List.length_cons] at hlen
      by_cases hfull : j = 2147483648
      · rw [calls_of_error (hf.full ha hrest hfull), hfull, Nat.sub_self, List.take_zero,
          List.countP_nil]
        exact ⟨fun h => (by cases h), fun h => by omega⟩
      · have hlt : j < 2147483648 := by omega
        have htake : 2147483648 - j = (2147483648 - (j + 1)) + 1 := by omega
        have hnext : ys.drop (j + 1) = rest := drop_succ_of_drop hrest
        rw [htake, List.take_succ_cons]
        cases hy : p y with
        | true =>
          have hih := ih (k := k) (j := j + 1) (by omega) hlt (by omega) hnext
          rw [natCast_succ_sub_one] at hih
          rw [inTurn_succ, List.filter_cons_of_pos hy, List.head?_cons, List.tail_cons,
            calls_of_ok (hf.hit ha hrest hlt hy), List.countP_cons_of_pos hy,
            List.countP_cons_of_pos hy, Nat.add_sub_add_right, Nat.add_le_add_iff_right,
            Nat.add_lt_add_iff_right, hih]
          exact ⟨fun h => h.2, fun h => ⟨rfl, h⟩⟩
        | false =>
          have hih := ih (k := k + 1) (j := j + 1) (by omega) hlt (by omega) hnext
          rw [natCast_succ_sub_one] at hih
          rw [calls_succ, hf.skip ha hrest hlt hy, ← calls_succ,
            List.filter_cons_of_neg (by rw [hy]; decide), hih,
            List.countP_cons_of_neg (by rw [hy]; decide),
            List.countP_cons_of_neg (by rw [hy]; decide)]

/-- Where nothing matches, an `int` does not reach the end of a longer vector. -/
theorem calls_none (hf : Walks f p ys a) (ha : a ≤ j) (hj : j ≤ 2147483648)
    (hsize : 2147483648 < ys.length) (hnone : ys.countP p = 0) :
    calls f k ((j : ℤ) - 1) = .ok (inTurn [] k) ↔ k = 0 := by
  have hno := List.countP_eq_zero.mp hnone
  have hnil : (ys.drop j).filter p = [] :=
    List.filter_eq_nil_iff.mpr fun z hz => hno z (List.mem_of_mem_drop hz)
  have htail : ((ys.drop j).take (2147483648 - j)).countP p = 0 :=
    List.countP_eq_zero.mpr fun z hz => hno z (List.mem_of_mem_drop (List.mem_of_mem_take hz))
  have hcalls := hf.calls_iff (k := k) ha hj (by omega)
  rw [hnil, htail] at hcalls
  rw [hcalls]
  exact ⟨fun h => by omega, fun h => Or.inl (by omega)⟩

end Walks

/-! ## The last index -/

theorem toSize_sub_one {j : ℕ} (ha : 1 ≤ j) (hj : j ≤ 18446744073709551616) :
    toSize ((j : ℤ) - 1) = j - 1 := by
  rw [← Nat.cast_pred (R := ℤ) ha, toSize_natCast (by omega)]

theorem toInt_natCast_le (n : ℕ) (h : 0 ≤ toInt n) : toInt n ≤ n := by
  rw [toInt, Int.bmod_def] at h ⊢
  split_ifs at h ⊢ <;> omega

namespace XMLNode

variable {j n : ℕ}

theorem lastIndex_of_pos (h : 0 < n) : lastIndex n = min (n - 1) 18446744073709551615 :=
  if_neg (by omega)

theorem lastIndex_le (n : ℕ) : lastIndex n ≤ 18446744073709551615 := by
  unfold lastIndex
  split_ifs <;> omega

/-- In front of the last child, the test of the cursor is right, as far as an `int` reaches. -/
theorem lt_lastIndex (ha : 1 ≤ j) (hlt : j < n) (hj : j ≤ 2147483648) :
    toSize ((j : ℤ) - 1) < lastIndex n := by
  rw [toSize_sub_one ha (by omega), lastIndex_of_pos (by omega)]
  omega

theorem not_lt_lastIndex (hpos : 0 < n) (hsize : n ≤ 2147483648) :
    ¬toSize ((n : ℤ) - 1) < lastIndex n := by
  rw [toSize_sub_one hpos (by omega), lastIndex_of_pos hpos]
  omega

/-- From the cursor before the first child, the test of the cursor stops a search. -/
theorem not_neg_lt_lastIndex (n : ℕ) : ¬toSize (-1) < lastIndex n := by
  have hle := lastIndex_le n
  have hminus : toSize (-1) = 18446744073709551615 := by decide
  omega

theorem toInt_lastIndex (hsize : n ≤ 2147483648) : toInt (lastIndex n) = n - 1 := by
  rcases Nat.eq_zero_or_pos n with rfl | hpos
  · decide
  · rw [lastIndex_of_pos hpos, toInt_natCast (by omega)]
    omega

theorem toInt_lastIndex_lt (h : 0 ≤ toInt (lastIndex n)) : toInt (lastIndex n) < n := by
  rcases Nat.eq_zero_or_pos n with rfl | hpos
  · exact absurd h (by decide)
  · have hle := toInt_natCast_le _ h
    rw [lastIndex_of_pos hpos] at hle ⊢
    omega

end XMLNode

/-! ## The searches of the program -/

section Searches

variable {α : Type*} {p : α → Bool} {ys zs : List α} {more : ℤ → Bool} {y : α} {rest : List α}
  {a j k : ℕ} {c : ℤ}

theorem lt_length_of_drop (h : ys.drop j = y :: rest) : j < ys.length := by
  have hlen := congrArg List.length h
  rw [List.length_drop, List.length_cons] at hlen
  omega

theorem childAt_of_drop (hpre : ys <+: zs) (h : ys.drop j = y :: rest)
    (hj : j < 18446744073709551616) : childAt zs j = .ok y := by
  obtain ⟨t, rfl⟩ := hpre
  have hget : (ys ++ t)[j]? = some y := by
    rw [List.getElem?_append_left (lt_length_of_drop h), ← Nat.add_zero j, ← List.getElem?_drop, h,
      List.getElem?_cons_zero]
  rw [childAt, toSize_natCast hj, hget]

theorem walks_whileChild (hpre : ys <+: zs)
    (hmore : ∀ j, a ≤ j → j < ys.length → j ≤ 2147483648 → more ((j : ℤ) - 1) = true) :
    Walks (whileChild p more zs) p ys a := by
  have hround : ∀ {j y rest}, a ≤ j → ys.drop j = y :: rest → j < 2147483648 →
      whileChild p more zs ((j : ℤ) - 1) =
        if p y then .ok (some y, (j : ℤ)) else whileChild p more zs j := by
    intro j y rest ha hdrop hj
    rw [whileChild, if_pos (hmore j ha (lt_length_of_drop hdrop) (by omega)), dif_pos (by omega),
      Int.sub_add_cancel, childAt_of_drop hpre hdrop (by omega)]
  refine ⟨fun ha hdrop hj hy => ?_, fun ha hdrop hj hy => ?_, fun ha hdrop hj => ?_⟩
  · rw [hround ha hdrop hj, if_pos hy]
  · rw [hround ha hdrop hj, if_neg (by rw [hy]; decide)]
  · rw [whileChild, if_pos (hmore _ ha (lt_length_of_drop hdrop) (by omega)), dif_neg (by omega)]

theorem walks_forNextChild (hpre : ys <+: zs) (a : ℕ) :
    Walks (forNextChild p ys.length zs) p ys a := by
  have hround : ∀ {j y rest}, ys.drop j = y :: rest → j < 2147483648 →
      forNextChild p ys.length zs ((j : ℤ) - 1) =
        if p y then .ok (some y, (j : ℤ)) else forNextChild p ys.length zs j := by
    intro j y rest hdrop hj
    rw [forNextChild, if_pos (by omega), Int.sub_add_cancel, forChild,
      toSize_natCast (by omega), if_pos (lt_length_of_drop hdrop),
      childAt_of_drop hpre hdrop (by omega)]
    dsimp only
    rw [dite_eq_ite, forNextChild]
  refine ⟨fun _ hdrop hj hy => ?_, fun _ hdrop hj hy => ?_, fun _ _ hj => ?_⟩
  · rw [hround hdrop hj, if_pos hy]
  · rw [hround hdrop hj, if_neg (by rw [hy]; decide)]
  · rw [forNextChild, if_neg (by omega)]

theorem whileChild_of_not (h : more c = false) : whileChild p more ys c = .ok (none, c) := by
  rw [whileChild, if_neg (by rw [h]; decide)]

/-- A `while` search that stops leaves the cursor where it is. -/
theorem calls_of_stay {next : ℤ → Except CursorFault (Option α × ℤ)} (h : next c = .ok (none, c))
    (k : ℕ) : calls next k c = .ok (inTurn [] k) := by
  induction k with
  | zero => rfl
  | succ k ih =>
    rw [inTurn_succ, calls_of_ok h]
    exact ⟨rfl, ih⟩

/-- A `for` search behind the last child moves the cursor at every call. -/
theorem calls_forNextChild_end {n : ℕ} (hn : n ≤ j) (hj : j ≤ 2147483648) :
    calls (forNextChild p n ys) k ((j : ℤ) - 1) = .ok (inTurn [] k) ↔ j + k ≤ 2147483648 := by
  induction k generalizing j with
  | zero => exact ⟨fun _ => hj, fun _ => rfl⟩
  | succ k ih =>
    by_cases hlt : j < 2147483648
    · have hend : forNextChild p n ys ((j : ℤ) - 1) = .ok (none, j) := by
        rw [forNextChild, if_pos (by omega), Int.sub_add_cancel, forChild,
          toSize_natCast (by omega), if_neg (by omega)]
      have hih := ih (j := j + 1) (by omega) hlt
      rw [Walks.natCast_succ_sub_one] at hih
      rw [inTurn_succ, calls_of_ok hend, List.tail_nil, hih]
      constructor
      · omega
      · exact fun h => ⟨rfl, by omega⟩
    · have hfull : forNextChild p n ys ((j : ℤ) - 1) = .error .overflow := by
        rw [forNextChild, if_neg (by omega)]
      rw [calls_of_error hfull]
      constructor
      · intro h
        cases h
      · omega

end Searches

/-! ## Both calls -/

section Pairs

variable {α : Type*} {p : α → Bool} {ys : List α} {first : Except CursorFault (Option α × ℤ)}
  {next : ℤ → Except CursorFault (Option α × ℤ)} {k : ℕ} {c : ℤ}

theorem enumerates_of_none (h : first = .ok (none, c)) : Enumerates first next (ys.filter p) k ↔
    ys.countP p = 0 ∧ calls next k c = .ok (inTurn [] k) := by
  rw [Enumerates, inTurn_succ, visits_of_ok h, List.countP_eq_length_filter]
  cases ys.filter p with
  | nil => exact ⟨fun h => ⟨rfl, h.2⟩, fun h => ⟨rfl, h.2⟩⟩
  | cons y ys => exact ⟨fun h => (by cases h.1), fun h => (by cases h.1)⟩

theorem not_enumerates_of_error {e : CursorFault} (h : first = .error e) :
    ¬Enumerates first next ys k := by
  rw [Enumerates, visits_of_error h]
  exact fun h => by cases h

/-- After a first child that is right, the children are visited while the cursor stays an `int`. -/
theorem enumerates_of_hit (hnext : Walks next p ys 1) {u v : List α} {y : α}
    (hys : ys = u ++ y :: v) (hu : ∀ z ∈ u, p z = false) (hy : p y = true)
    (hlt : u.length < 2147483648) (h : first = .ok (some y, (u.length : ℕ))) :
    Enumerates first next (ys.filter p) k ↔ k < (ys.take 2147483648).countP p ∨
      ys.countP p ≤ k ∧ ys.length ≤ 2147483648 ∧
        calls next (k + 1 - ys.countP p) (ys.length - 1) =
          .ok (inTurn [] (k + 1 - ys.countP p)) := by
  have hzero : u.countP p = 0 := List.countP_eq_zero.mpr fun z hz => by rw [hu z hz]; decide
  have hnil : u.filter p = [] := List.filter_eq_nil_iff.mpr fun z hz => by rw [hu z hz]; decide
  have hfilter : ys.filter p = y :: v.filter p := by
    rw [hys, List.filter_append, hnil, List.nil_append, List.filter_cons_of_pos hy]
  have hcount : ys.countP p = v.countP p + 1 := by
    rw [hys, List.countP_append, hzero, List.countP_cons_of_pos hy, Nat.zero_add]
  have htake : (ys.take 2147483648).countP p =
      (v.take (2147483648 - (u.length + 1))).countP p + 1 := by
    rw [hys, List.take_append, List.take_of_length_le (by omega),
      show 2147483648 - u.length = 2147483648 - (u.length + 1) + 1 by omega, List.take_succ_cons,
      List.countP_append, hzero, List.countP_cons_of_pos hy, Nat.zero_add]
  have hdrop : ys.drop (u.length + 1) = v := by
    rw [hys, ← List.drop_drop, List.drop_left]
    rfl
  have hlen := congrArg List.length hys
  rw [List.length_append, List.length_cons] at hlen
  have hcalls := hnext.calls_iff (k := k) (j := u.length + 1) (by omega) (by omega) (by omega)
  rw [Walks.natCast_succ_sub_one, hdrop] at hcalls
  rw [Enumerates, inTurn_succ, visits_of_ok h, hfilter, List.head?_cons, List.tail_cons, hcalls,
    hcount, htake, Nat.add_sub_add_right, Nat.lt_succ_iff]
  exact ⟨fun h => h.2, fun h => ⟨rfl, h⟩⟩

/-- The first search, over the first `b` children, finds one that is right, or comes to its end, or
the cursor is no `int` any more. -/
theorem first_cases {f : ℤ → Except CursorFault (Option α × ℤ)} {b : ℕ} (hb : b ≤ ys.length)
    (hf : Walks f p (ys.take b) 0) (hnext : Walks next p ys 1) (k : ℕ) :
    (0 < (ys.take b).countP p ∧
        (Enumerates (f (-1)) next (ys.filter p) k ↔ k < (ys.take 2147483648).countP p ∨
          ys.countP p ≤ k ∧ ys.length ≤ 2147483648 ∧
            calls next (k + 1 - ys.countP p) (ys.length - 1) =
              .ok (inTurn [] (k + 1 - ys.countP p)))) ∨
      ((ys.take b).countP p = 0 ∧ b ≤ 2147483648 ∧ f (-1) = f ((b : ℤ) - 1)) ∨
      ((ys.take 2147483648).countP p = 0 ∧ 2147483648 < b ∧
        ¬Enumerates (f (-1)) next (ys.filter p) k) := by
  have hnone : ∀ l : List α, (∀ z ∈ l, p z = false) → l.countP p = 0 := fun l hl =>
    List.countP_eq_zero.mpr fun z hz => by rw [hl z hz]; decide
  have hout := hf.outcome (j := 0) le_rfl (Nat.zero_le _)
  rw [List.drop_zero, Nat.cast_zero, Int.zero_sub, Nat.zero_add, Nat.sub_zero,
    List.length_take_of_le hb, List.take_take] at hout
  rcases hout with ⟨u, y, v, huv, hu, hy, hlt, hres⟩ | ⟨hall, hle, hres⟩ | ⟨hall, hlt, hres⟩
  · rw [Nat.zero_add] at hlt hres
    have hys : ys = u ++ y :: (v ++ ys.drop b) := by
      have h := List.take_append_drop b ys
      rw [huv, List.append_assoc] at h
      exact h.symm
    refine Or.inl ⟨?_, enumerates_of_hit hnext hys hu hy hlt hres⟩
    rw [huv]
    exact List.countP_pos_iff.mpr ⟨y, List.mem_append_right u List.mem_cons_self, hy⟩
  · exact Or.inr (Or.inl ⟨hnone _ hall, hle, hres⟩)
  · rw [Nat.min_eq_left (by omega)] at hall
    exact Or.inr (Or.inr ⟨hnone _ hall, hlt, not_enumerates_of_error hres⟩)

theorem countP_take_le (m : ℕ) (ys : List α) : (ys.take m).countP p ≤ ys.countP p :=
  (List.take_sublist m ys).countP_le

/-- The search for the first child by name, at its end. -/
theorem forNextChild_end {b : ℕ} : forNextChild p b ys ((b : ℤ) - 1) =
    if b < 2147483648 then .ok (none, (b : ℤ)) else .error .overflow := by
  rw [forNextChild]
  by_cases hlt : b < 2147483648
  · rw [if_pos (by omega), if_pos hlt, Int.sub_add_cancel, forChild, toSize_natCast (by omega),
      if_neg (by omega)]
  · rw [if_neg (by omega), if_neg hlt]

/-- The pair by name skips the last child at first, and reads outside an empty vector. -/
theorem enumerates_named_iff (p : α → Bool) (ys : List α) (k : ℕ) :
    Enumerates (forChild p (XMLNode.lastIndex ys.length) ys 0) (forNextChild p ys.length ys)
        (ys.filter p) k ↔ ys ≠ [] ∧ ((ys.countP p = 0 ∧ ys.length + k ≤ 2147483648) ∨
      0 < ys.dropLast.countP p ∧ (k < (ys.take 2147483648).countP p ∨
        ys.countP p ≤ k ∧ ys.length + (k - ys.countP p) < 2147483648)) := by
  by_cases hne : ys = []
  · have hfault : forChild p (XMLNode.lastIndex ys.length) ys 0 = .error .outside := by
      rw [hne, forChild]
      rfl
    exact ⟨fun h => absurd h (not_enumerates_of_error hfault), fun h => absurd hne h.1⟩
  · have hpos : 0 < ys.length := List.length_pos_iff.mpr hne
    obtain ⟨b, hb⟩ : ∃ b, XMLNode.lastIndex ys.length = b := ⟨_, rfl⟩
    have hmin := XMLNode.lastIndex_of_pos hpos
    rw [hb] at hmin
    have hfirst : forChild p b ys 0 = forNextChild p b ys (-1) := by
      rw [forNextChild, if_pos (by decide)]
      rfl
    have hwalk := walks_forNextChild (p := p) (List.take_prefix b ys) 0
    rw [List.length_take_of_le (by omega)] at hwalk
    have hwhole := walks_forNextChild (p := p) (List.prefix_refl ys) 1
    have hsub : (ys.take b).countP p ≤ ys.dropLast.countP p := by
      have h := countP_take_le (p := p) b ys.dropLast
      rwa [List.dropLast_eq_take, List.take_take, Nat.min_eq_left (by omega),
        ← List.dropLast_eq_take] at h
    have hdrop := countP_take_le (p := p) (ys.length - 1) ys
    rw [← List.dropLast_eq_take] at hdrop
    rw [hb, hfirst]
    rcases first_cases (by omega) hwalk hwhole k with
      ⟨hhit, hiff⟩ | ⟨hzero, hle, hend⟩ | ⟨hzero, hlt, hnot⟩
    · rw [hiff]
      constructor
      · intro h
        refine ⟨hne, Or.inr ⟨by omega, ?_⟩⟩
        rcases h with h | ⟨hM, hle, hcalls⟩
        · exact Or.inl h
        · have hlast := (calls_forNextChild_end le_rfl hle).mp hcalls
          exact Or.inr ⟨hM, by omega⟩
      · rintro ⟨-, ⟨hM, -⟩ | ⟨-, h | ⟨hM, hlast⟩⟩⟩
        · omega
        · exact Or.inl h
        · exact Or.inr ⟨hM, by omega,
            (calls_forNextChild_end le_rfl (by omega)).mpr (by omega)⟩
    · have heq : b = ys.length - 1 := by omega
      rw [heq, ← List.dropLast_eq_take] at hzero
      by_cases hlt : b < 2147483648
      · have hcur : (b : ℤ) = ys.length - 1 := by omega
        rw [hend, forNextChild_end, if_pos hlt, enumerates_of_none rfl, hcur,
          calls_forNextChild_end le_rfl (by omega)]
        constructor
        · exact fun h => ⟨hne, Or.inl h⟩
        · rintro ⟨-, h | ⟨h, -⟩⟩
          · exact h
          · omega
      · rw [hend, forNextChild_end, if_neg hlt]
        exact ⟨fun h => absurd h (not_enumerates_of_error rfl), fun h => by omega⟩
    · exact ⟨fun h => absurd h hnot, fun h => by omega⟩

/-- Where the conversion of `children.size() - 1` to an `int` is negative, nothing is visited. -/
theorem enumerates_type_of_neg {nc : ℤ} (hneg : nc < 0) :
    Enumerates (whileChild p (fun c => c < nc) ys (-1))
        (whileChild p (fun c => toSize c < XMLNode.lastIndex ys.length) ys) (ys.filter p) k ↔
      ys.countP p = 0 := by
  have hfirst : whileChild p (fun c => c < nc) ys (-1) = .ok (none, -1) :=
    whileChild_of_not (decide_eq_false (by omega))
  have hstay : whileChild p (fun c => toSize c < XMLNode.lastIndex ys.length) ys (-1) =
      .ok (none, -1) :=
    whileChild_of_not (decide_eq_false (XMLNode.not_neg_lt_lastIndex _))
  rw [enumerates_of_none hfirst]
  exact ⟨fun h => h.1, fun h => ⟨h, calls_of_stay hstay k⟩⟩

/-- Where it is not, the first child is searched among as many children. -/
theorem enumerates_type_of_nonneg {nc : ℤ} (hnc : toInt (XMLNode.lastIndex ys.length) = nc)
    (hnonneg : 0 ≤ nc) :
    Enumerates (whileChild p (fun c => c < nc) ys (-1))
        (whileChild p (fun c => toSize c < XMLNode.lastIndex ys.length) ys) (ys.filter p) k ↔
      ys.length ≤ 2147483648 ∨
        0 < (ys.take (nc + 1).toNat).countP p ∧ k < (ys.take 2147483648).countP p ∨
        ys.countP p = 0 ∧ k = 0 := by
  have hint := toInt_mem (XMLNode.lastIndex ys.length)
  have hbelow : nc < ys.length := by
    rw [← hnc] at hnonneg ⊢
    exact XMLNode.toInt_lastIndex_lt hnonneg
  have hlen : (ys.take (nc + 1).toNat).length = (nc + 1).toNat :=
    List.length_take_of_le (by omega)
  have hwalk : Walks (whileChild p (fun c => c < nc) ys) p (ys.take (nc + 1).toNat) 0 :=
    walks_whileChild (List.take_prefix _ ys) fun j _ hj _ => decide_eq_true (by omega)
  have hwhole : Walks (whileChild p (fun c => toSize c < XMLNode.lastIndex ys.length) ys) p ys 1 :=
    walks_whileChild (List.prefix_refl ys) fun j ha hj hlt =>
      decide_eq_true (XMLNode.lt_lastIndex ha hj hlt)
  have hlast : ys.length ≤ 2147483648 → ∀ k, calls
      (whileChild p (fun c => toSize c < XMLNode.lastIndex ys.length) ys) k (ys.length - 1) =
        .ok (inTurn [] k) := fun hsize => calls_of_stay
    (whileChild_of_not (decide_eq_false (XMLNode.not_lt_lastIndex (by omega) hsize)))
  have hpos := countP_take_le (p := p) (nc + 1).toNat ys
  rcases first_cases (by omega) hwalk hwhole k with
    ⟨hhit, hiff⟩ | ⟨hzero, hle, hend⟩ | ⟨hzero, hlt, hnot⟩
  · rw [hiff]
    constructor
    · rintro (h | ⟨-, h, -⟩)
      · exact Or.inr (Or.inl ⟨hhit, h⟩)
      · exact Or.inl h
    · rintro (h | ⟨-, h⟩ | ⟨h, -⟩)
      · rw [List.take_of_length_le h]
        by_cases hk : k < ys.countP p
        · exact Or.inl hk
        · exact Or.inr ⟨by omega, h, hlast h _⟩
      · exact Or.inl h
      · omega
  · have hcur : ((nc + 1).toNat : ℤ) - 1 = nc := by omega
    have hstop : whileChild p (fun c => c < nc) ys nc = .ok (none, nc) :=
      whileChild_of_not (decide_eq_false (by omega))
    rw [hend, hcur, hstop, enumerates_of_none rfl, hzero]
    by_cases hsmall : ys.length ≤ 2147483648
    · have hall : (ys.length : ℤ) - 1 = nc := by rw [← hnc, XMLNode.toInt_lastIndex hsmall]
      have hcalls := hlast hsmall k
      rw [List.take_of_length_le (by omega)] at hzero
      rw [hall] at hcalls
      exact ⟨fun _ => Or.inl hsmall, fun _ => ⟨hzero, hcalls⟩⟩
    · have hcalls := hwhole.calls_none (k := k) (j := (nc + 1).toNat) (by omega) hle (by omega)
      rw [hcur] at hcalls
      constructor
      · exact fun h => Or.inr (Or.inr ⟨h.1, (hcalls h.1).mp h.2⟩)
      · rintro (h | ⟨h, -⟩ | ⟨hnone, h⟩)
        · omega
        · omega
        · exact ⟨hnone, (hcalls hnone).mpr h⟩
  · omega

/-- The pair by type is right up to the size where the conversion of `children.size() - 1` to an
`int` loses something. -/
theorem enumerates_type_iff (p : α → Bool) (ys : List α) (k : ℕ) {nc : ℤ}
    (hnc : toInt (XMLNode.lastIndex ys.length) = nc) :
    Enumerates (whileChild p (fun c => c < nc) ys (-1))
        (whileChild p (fun c => toSize c < XMLNode.lastIndex ys.length) ys) (ys.filter p) k ↔
      ys.length ≤ 2147483648 ∨
        0 < (ys.take (nc + 1).toNat).countP p ∧ k < (ys.take 2147483648).countP p ∨
        ys.countP p = 0 ∧ (k = 0 ∨ nc < 0) := by
  by_cases hneg : nc < 0
  · rw [enumerates_type_of_neg hneg]
    constructor
    · exact fun h => Or.inr (Or.inr ⟨h, Or.inr hneg⟩)
    · rintro (hsize | ⟨h, -⟩ | ⟨h, -⟩)
      · rw [XMLNode.toInt_lastIndex hsize] at hnc
        rw [List.eq_nil_of_length_eq_zero (by omega : ys.length = 0), List.countP_nil]
      · rw [show (nc + 1).toNat = 0 by omega, List.take_zero, List.countP_nil] at h
        omega
      · exact h
  · rw [enumerates_type_of_nonneg hnc (by omega)]
    have hk : k = 0 ↔ k = 0 ∨ nc < 0 := by omega
    rw [← hk]

end Pairs

/-! ## The three pairs -/

namespace XMLNode

variable {x : XMLNode} {j k : ℕ}

theorem length_slots (x : XMLNode) : x.slots.length = x.children.length := List.length_zipIdx

theorem countP_fst {l : List (XMLNode × ℕ)} {r : List XMLNode} (h : l.map Prod.fst = r)
    (q : XMLNode → Bool) : l.countP (fun y => q y.1) = r.countP q := by
  rw [← h, List.countP_map]
  rfl

theorem map_slots (x : XMLNode) : x.slots.map Prod.fst = x.children :=
  List.zipIdx_map_fst 0 x.children

theorem getNextChild_stay (hpos : 0 < x.children.length) (hsize : x.children.length ≤ 2147483648) :
    x.getNextChild (x.children.length - 1) = .ok (none, (x.children.length : ℤ) - 1) := by
  rw [getNextChild, if_neg (not_lt_lastIndex hpos hsize)]

theorem walks_getNextChild (x : XMLNode) : Walks x.getNextChild (fun _ => true) x.slots 1 := by
  have hmore : ∀ {j y rest}, 1 ≤ j → x.slots.drop j = y :: rest → j ≤ 2147483648 →
      toSize ((j : ℤ) - 1) < lastIndex x.children.length := by
    intro j y rest ha hdrop hj
    have hlt := lt_length_of_drop hdrop
    rw [length_slots] at hlt
    exact lt_lastIndex ha hlt hj
  refine ⟨fun ha hdrop hj _ => ?_, fun _ _ _ h => (by cases h), fun ha hdrop hj => ?_⟩
  · rw [getNextChild, if_pos (hmore ha hdrop (by omega)), if_pos (by omega), Int.sub_add_cancel,
      childAt_of_drop (List.prefix_refl _) hdrop (by omega)]
    rfl
  · rw [getNextChild, if_pos (hmore ha hdrop (by omega)), if_neg (by omega)]

theorem enumerates_plain_iff (x : XMLNode) (k : ℕ) :
    Enumerates x.getFirstChild x.getNextChild x.slots k ↔
      (x.children = [] → k = 0) ∧ (k < 2147483648 ∨ x.children.length ≤ 2147483648) := by
  rw [← List.filter_true x.slots]
  have hlen := x.length_slots
  by_cases hempty : x.children = []
  · have hfirst : x.getFirstChild = .ok (none, 0) := by
      rw [getFirstChild, hempty]
      rfl
    have hslots : x.slots = [] := by rw [slots, hempty, List.zipIdx_nil]
    rw [enumerates_of_none hfirst, hslots]
    cases k with
    | zero => exact ⟨fun _ => ⟨fun _ => rfl, Or.inl (by decide)⟩, fun _ => ⟨rfl, rfl⟩⟩
    | succ k =>
      have hfault : x.getNextChild 0 = .error .outside := by
        rw [getNextChild, hslots, hempty]
        rfl
      rw [calls_of_error hfault]
      exact ⟨fun h => (by cases h.2), fun h => absurd (h.1 hempty) (Nat.succ_ne_zero k)⟩
  · have hpos : 0 < x.children.length := List.length_pos_iff.mpr hempty
    obtain ⟨y, rest, hslots⟩ : ∃ y rest, x.slots = y :: rest := by
      apply List.exists_cons_of_length_pos
      omega
    have hfirst : x.getFirstChild = .ok (some y, ([] : List (XMLNode × ℕ)).length) := by
      rw [getFirstChild, if_neg (by simpa using hempty), hslots]
      rfl
    have hiff := enumerates_of_hit (k := k) x.walks_getNextChild hslots
      (fun z hz => absurd hz List.not_mem_nil) rfl (by decide) hfirst
    rw [hiff, List.countP_true, List.length_take, hlen]
    constructor
    · exact fun h => ⟨fun he => absurd he hempty, by omega⟩
    · rintro ⟨-, h⟩
      by_cases hk : k < min 2147483648 x.children.length
      · exact Or.inl hk
      · have hsize : x.children.length ≤ 2147483648 := by omega
        exact Or.inr ⟨by omega, hsize, calls_of_stay (getNextChild_stay hpos hsize) _⟩

/-- Exactly when the three pairs visit the children they should, with `k` calls after the first.

Without an argument the vector has a child, or no second call is made.  By name it has one, and none
of the name, or one of the name that is not the last.  By type the number of children is one of an
`int`, or the calls stop before this matters.  In all three the cursor stays an `int`. -/
theorem children_visited_iff (x : XMLNode) (n : Str) (type : ℤ) (k : ℕ) :
    (Enumerates x.getFirstChild x.getNextChild x.slots k ↔
      (x.children = [] → k = 0) ∧ (k < 2147483648 ∨ x.children.length ≤ 2147483648)) ∧
    (Enumerates (x.getFirstChildNamed n) (x.getNextChildNamed n)
        (x.slots.filter fun y => isNamed n y.1) k ↔
      x.children ≠ [] ∧
        ((x.children.countP (isNamed n) = 0 ∧ x.children.length + k ≤ 2147483648) ∨
          0 < x.children.dropLast.countP (isNamed n) ∧
            (k < (x.children.take 2147483648).countP (isNamed n) ∨
              x.children.countP (isNamed n) ≤ k ∧
                x.children.length + (k - x.children.countP (isNamed n)) < 2147483648))) ∧
    (Enumerates (x.getFirstChildOfType type) (x.getNextChildOfType type)
        (x.slots.filter fun y => isOfType type y.1) k ↔
      x.children.length ≤ 2147483648 ∨
        0 < (x.children.take (toInt (lastIndex x.children.length) + 1).toNat).countP
            (isOfType type) ∧
          k < (x.children.take 2147483648).countP (isOfType type) ∨
        x.children.countP (isOfType type) = 0 ∧
          (k = 0 ∨ toInt (lastIndex x.children.length) < 0)) := by
  have hlen := x.length_slots
  have hall := countP_fst x.map_slots
  have htake : ∀ m q, (x.slots.take m).countP (fun y => q y.1) = (x.children.take m).countP q :=
    fun m => countP_fst (by rw [List.map_take, map_slots])
  have hdrop : x.slots.dropLast.map Prod.fst = x.children.dropLast := by
    rw [List.map_dropLast, map_slots]
  refine ⟨x.enumerates_plain_iff k, ?_, ?_⟩
  · have hiff := enumerates_named_iff (fun y => isNamed n y.1) x.slots k
    have hne : x.slots ≠ [] ↔ x.children ≠ [] := by
      rw [← List.length_pos_iff, ← List.length_pos_iff, hlen]
    rw [hlen, hall, htake, countP_fst hdrop, hne] at hiff
    exact hiff
  · have hiff := enumerates_type_iff (fun y => isOfType type y.1) x.slots k rfl
    rw [hlen, hall, htake, htake] at hiff
    exact hiff

/-- An only child is not found by its name, and a node without children is read outside its
vector. -/
theorem only_child_not_visited :
    let only : XMLNode := { name := str "init", children := [{ name := str "cmd" }] }
    let empty : XMLNode := { name := str "init" }
    only.getFirstChildNamed (str "cmd") = .ok (none, 0) ∧
      ¬Enumerates (only.getFirstChildNamed (str "cmd")) (only.getNextChildNamed (str "cmd"))
        (only.slots.filter fun y => isNamed (str "cmd") y.1) 0 ∧
      empty.getFirstChildNamed (str "cmd") = .error .outside ∧
      empty.getFirstChild = .ok (none, 0) ∧ empty.getNextChild 0 = .error .outside := by
  intro only empty
  have hmissed : only.getFirstChildNamed (str "cmd") = .ok (none, 0) := by
    rw [getFirstChildNamed, forChild]
    rfl
  refine ⟨hmissed, ?_, ?_, rfl, rfl⟩
  · rw [enumerates_of_none hmissed]
    exact fun h => absurd h.1 (by decide)
  · rw [getFirstChildNamed, forChild]
    rfl

end XMLNode

end Peter
