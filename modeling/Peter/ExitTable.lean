import Peter.Values

/-!
# The table of exit actions

The tables have for each code the last list that was stored for it before the first fault
(`exists_readExits_eq`).  So `get_actions` finds, after a well-formed `actions` element was read, the
list of the last element that covers the code (`getActions_readActions`), however many lookups came
before.
-/

namespace Peter

open Classical in
/-- The last element of a list with `P`. -/
noncomputable def lastWith {α : Type*} (P : α → Prop) (xs : List α) : Option α :=
  (xs.filter P).getLast?

theorem lastWith_cons {α : Type*} (P : α → Prop) (x : α) (xs : List α) :
    lastWith P (x :: xs) = (lastWith P xs).or (lastWith P [x]) := by
  unfold lastWith
  rw [← List.singleton_append, List.filter_append, List.getLast?_append]

theorem lastWith_singleton_of_pos {α : Type*} {P : α → Prop} {x : α} (h : P x) :
    lastWith P [x] = some x := by
  simp [lastWith, h]

theorem lastWith_singleton_of_neg {α : Type*} {P : α → Prop} {x : α} (h : ¬P x) :
    lastWith P [x] = none := by
  simp [lastWith, h]

/-! ## Exit elements -/

/-- A start, stop or exit action; the `after` of a start or stop is a number. -/
def IsAction (x : XMLNode) : Prop :=
  x.name = str "exit" ∨ (x.name = str "start" ∨ x.name = str "stop") ∧
    (stol (x.getAttribute (str "after") (str "0"))).isSome

/-- An exit element with well-formed value lists. -/
structure IsExit (x : XMLNode) : Prop where
  actions : ∀ c ∈ x.children, IsAction c
  lists : ∀ a ∈ [str "signal", str "result"], ∀ s, x.attribute? a = some s →
    ∃ parts, IsValueList s parts

/-- The action an element asks for. -/
def actionOf (x : XMLNode) : Action :=
  if x.name = str "exit" then { actionType := .exit }
  else
    { actionType := if x.name = str "start" then .exec else .kill
      prog := x.getAttribute (str "name") []
      after := (stol (x.getAttribute (str "after") (str "0"))).getD 0 }

/-- The list of an exit element. -/
def actionsOf (x : XMLNode) : ActionList := x.children.map actionOf

/-- The element has a signal attribute that covers `n`. -/
def CoversSignal (n : ℤ) (x : XMLNode) : Prop :=
  ∃ s, x.attribute? (str "signal") = some s ∧ ListCovers s n

/-- The element has no signal attribute, and its result attribute covers `n`; without one it covers
0. -/
def CoversResult (n : ℤ) (x : XMLNode) : Prop :=
  x.attribute? (str "signal") = none ∧ match x.attribute? (str "result") with
    | some s => ListCovers s n
    | none => n = 0

theorem readAction_eq {x : XMLNode} (h : IsAction x) : readAction x = .ok (actionOf x) := by
  unfold readAction actionOf
  rcases h with hexit | ⟨hname, hafter⟩
  · have hstart : x.name ≠ str "start" := hexit ▸ by decide
    have hstop : x.name ≠ str "stop" := hexit ▸ by decide
    simp only [if_neg hstart, if_neg hstop, if_pos hexit]
    rfl
  · obtain ⟨after, hafter⟩ := Option.isSome_iff_exists.1 hafter
    rcases hname with hname | hname
    · have hexit : x.name ≠ str "exit" := hname ▸ by decide
      simp only [if_pos hname, if_neg hexit, hafter]
      rfl
    · have hexit : x.name ≠ str "exit" := hname ▸ by decide
      have hstart : x.name ≠ str "start" := hname ▸ by decide
      simp only [if_pos hname, if_neg hexit, if_neg hstart, hafter]
      rfl

theorem mapM_readAction {xs : List XMLNode} (h : ∀ c ∈ xs, IsAction c) :
    xs.mapM readAction = .ok (xs.map actionOf) := by
  induction xs with
  | nil => rfl
  | cons x xs ih =>
    obtain ⟨hx, hxs⟩ := List.forall_mem_cons.1 h
    rw [List.mapM_cons, readAction_eq hx, ih hxs]
    rfl

/-! ## Until the fault -/

namespace XMLNode

/-- The parts of the value list of an exit element, which is `0` without the attributes. -/
def parts (x : XMLNode) : List Str :=
  match x.attribute? (str "signal") with
  | some signals => tokenize signals [] (UInt8.ofNat 44)
  | none => match x.attribute? (str "result") with
    | some results => tokenize results [] (UInt8.ofNat 44)
    | none => [str "0"]

/-- Why an exit element ends the reading. -/
def exitFault (x : XMLNode) : Option ReadFault :=
  match x.children.mapM readAction with
  | .error f => some f
  | .ok _ => x.parts.findSome? fun tmp => faultOf (readPart tmp)

/-- An exit element whose actions are read says `n` before the first part that is no number. -/
def Stores (x : XMLNode) (n : ℤ) : Prop :=
  (∀ c ∈ x.children, IsAction c) ∧
    ∃ tmp ∈ Faults.upToFault (fun tmp => faultOf (readPart tmp)) x.parts, PartCovers tmp n

end XMLNode

def StoresSignal (n : ℤ) (x : XMLNode) : Prop :=
  (x.attribute? (str "signal")).isSome ∧ x.Stores n

def StoresResult (n : ℤ) (x : XMLNode) : Prop :=
  x.attribute? (str "signal") = none ∧ x.Stores n

theorem isAction_of_readAction {x : XMLNode} {a : Action} (h : readAction x = .ok a) :
    IsAction x := by
  unfold readAction at h
  dsimp only at h
  split_ifs at h with hstart hstop hexit
  · obtain ⟨after, hafter, -⟩ := bind_eq_ok h
    exact .inr ⟨.inl hstart, Option.isSome_iff_exists.2 ⟨after, orThrow_eq_ok hafter⟩⟩
  · obtain ⟨after, hafter, -⟩ := bind_eq_ok h
    exact .inr ⟨.inr hstop, Option.isSome_iff_exists.2 ⟨after, orThrow_eq_ok hafter⟩⟩
  · exact .inl hexit

theorem isAction_of_mapM {xs : List XMLNode} {al : ActionList} (h : xs.mapM readAction = .ok al) :
    ∀ c ∈ xs, IsAction c := by
  induction xs generalizing al with
  | nil => simp
  | cons x xs ih =>
    rw [List.mapM_cons] at h
    obtain ⟨a, ha, h⟩ := bind_eq_ok h
    obtain ⟨al, hal, -⟩ := bind_eq_ok h
    exact List.forall_mem_cons.2 ⟨isAction_of_readAction ha, ih hal⟩

theorem readExit_eq {x : XMLNode} (h : ∀ c ∈ x.children, IsAction c) (t : Tables) :
    readExit x t = if (x.attribute? (str "signal")).isSome then
      ({ t with sgnl := (setParts (actionsOf x) x.parts t.sgnl).1 },
        (setParts (actionsOf x) x.parts t.sgnl).2)
    else
      ({ t with exit := (setParts (actionsOf x) x.parts t.exit).1 },
        (setParts (actionsOf x) x.parts t.exit).2) := by
  rw [readExit, mapM_readAction h]
  unfold XMLNode.parts
  cases x.attribute? (str "signal") with
  | some signals => rfl
  | none =>
    cases x.attribute? (str "result") with
    | some results => rfl
    | none => rfl

/-- An exit element stores its list until its fault. -/
theorem exists_readExit_eq (x : XMLNode) (t : Tables) : ∃ t', readExit x t = (t', x.exitFault) ∧
    Stored (actionsOf x) (StoresSignal · x) t.sgnl t'.sgnl ∧
    Stored (actionsOf x) (StoresResult · x) t.exit t'.exit := by
  have hno : ∀ {P : ℤ → Prop} (t : Table), (∀ n, ¬P n) → Stored (actionsOf x) P t t :=
    fun t hP => (Stored.refl _ t).congr fun n => iff_of_false (hP n) id
  cases hal : x.children.mapM readAction with
  | error f =>
    have hactions : ¬∀ c ∈ x.children, IsAction c := fun h => by
      rw [mapM_readAction h] at hal
      cases hal
    refine ⟨t, ?_, hno _ fun n hn => hactions hn.2.1, hno _ fun n hn => hactions hn.2.1⟩
    rw [readExit, XMLNode.exitFault, hal]
  | ok al =>
    have hactions := isAction_of_mapM hal
    have hstores : ∀ n, x.Stores n ↔ ∃ tmp ∈ Faults.upToFault
        (fun tmp => faultOf (readPart tmp)) x.parts, PartCovers tmp n :=
      fun n => and_iff_right hactions
    rw [readExit_eq hactions, XMLNode.exitFault, hal]
    cases hsignal : (x.attribute? (str "signal")).isSome with
    | true =>
      obtain ⟨sgnl, hsgnl, hstored⟩ := exists_setParts_eq (actionsOf x) x.parts t.sgnl
      refine ⟨{ t with sgnl }, ?_, hstored.congr fun n => ?_, hno _ fun n hn => ?_⟩
      · rw [if_pos rfl, hsgnl]
      · exact (and_iff_right hsignal).trans (hstores n)
      · simp [hn.1] at hsignal
    | false =>
      obtain ⟨exit, hexit, hstored⟩ := exists_setParts_eq (actionsOf x) x.parts t.exit
      refine ⟨{ t with exit }, ?_, hno _ fun n hn => ?_, hstored.congr fun n => ?_⟩
      · rw [if_neg (by simp), hexit]
      · simp [hn.1] at hsignal
      · have hnone : x.attribute? (str "signal") = none := by simpa using hsignal
        exact (and_iff_right hnone).trans (hstores n)

/-- The last element of `xs` that covers `n`, or what the table had before. -/
def Latest (covers : ℤ → XMLNode → Prop) (xs : List XMLNode) (t t' : Table) : Prop :=
  ∀ n, t' n = ((lastWith (covers n) xs).map fun x => some (some (actionsOf x))).getD (t n)

theorem Latest.cons {covers : ℤ → XMLNode → Prop} {x : XMLNode} {xs : List XMLNode}
    {t t' t'' : Table} (h : Stored (actionsOf x) (covers · x) t t')
    (h' : Latest covers xs t' t'') : Latest covers (x :: xs) t t'' := by
  intro n
  rw [h' n, lastWith_cons]
  rcases lastWith (covers n) xs with _ | y
  · rw [Option.none_or]
    by_cases hx : covers n x
    · rw [lastWith_singleton_of_pos hx]
      exact h.of_mem n hx
    · rw [lastWith_singleton_of_neg hx]
      exact h.of_not_mem n hx
  · rfl

/-- The tables have for each number the last list that was stored for it before the fault. -/
theorem exists_readExits_eq (xs : List XMLNode) (t : Tables) :
    ∃ t', readExits xs t = (t', xs.findSome? XMLNode.exitFault) ∧
      Latest StoresSignal (Faults.upToFault XMLNode.exitFault xs) t.sgnl t'.sgnl ∧
      Latest StoresResult (Faults.upToFault XMLNode.exitFault xs) t.exit t'.exit := by
  refine Faults.exists_loop_eq
    (S := fun x t t' => Stored (actionsOf x) (StoresSignal · x) t.sgnl t'.sgnl ∧
      Stored (actionsOf x) (StoresResult · x) t.exit t'.exit)
    (R := fun xs t t' => Latest StoresSignal xs t.sgnl t'.sgnl ∧
      Latest StoresResult xs t.exit t'.exit)
    ?_ ?_ (fun t => ⟨fun _ => rfl, fun _ => rfl⟩)
    (fun hround hrest => ⟨hrest.1.cons hround.1, hrest.2.cons hround.2⟩) xs t
  · exact fun t => rfl
  intro x xs t
  obtain ⟨t', hread, hstored⟩ := exists_readExit_eq x t
  refine ⟨t', hstored, ?_⟩
  rw [readExits, hread]
  cases x.exitFault <;> rfl

/-! ## Well-formed elements -/

namespace IsExit

variable {x : XMLNode}

theorem findSome?_parts (h : IsExit x) :
    x.parts.findSome? (fun tmp => faultOf (readPart tmp)) = none := by
  unfold XMLNode.parts
  rcases hsignal : x.attribute? (str "signal") with _ | signals
  · rcases hresult : x.attribute? (str "result") with _ | results
    · rfl
    · obtain ⟨parts, hparts⟩ := h.lists _ (by simp) _ hresult
      exact hparts.findSome?_faultOf
  · obtain ⟨parts, hparts⟩ := h.lists _ (by simp) _ hsignal
    exact hparts.findSome?_faultOf

theorem exitFault_eq_none (h : IsExit x) : x.exitFault = none := by
  rw [XMLNode.exitFault, mapM_readAction h.actions]
  exact h.findSome?_parts

theorem stores_iff (h : IsExit x) (n : ℤ) :
    x.Stores n ↔ ∃ tmp ∈ x.parts, PartCovers tmp n := by
  rw [XMLNode.Stores, Faults.upToFault_eq_self h.findSome?_parts]
  exact and_iff_right h.actions

theorem storesSignal_iff (h : IsExit x) (n : ℤ) : StoresSignal n x ↔ CoversSignal n x := by
  rw [StoresSignal, CoversSignal, h.stores_iff, XMLNode.parts]
  rcases hsignal : x.attribute? (str "signal") with _ | signals
  · simp
  · obtain ⟨parts, hparts⟩ := h.lists _ (by simp) _ hsignal
    simp [hparts.listCovers_iff]

theorem storesResult_iff (h : IsExit x) (n : ℤ) : StoresResult n x ↔ CoversResult n x := by
  rw [StoresResult, CoversResult, h.stores_iff, XMLNode.parts]
  rcases hsignal : x.attribute? (str "signal") with _ | signals
  · rcases hresult : x.attribute? (str "result") with _ | results
    · have hzero : readPart (str "0") = .ok (0, 0) := rfl
      refine and_congr Iff.rfl ?_
      simp only [List.mem_singleton, exists_eq_left, readPart_eq_ok_iff hzero]
      omega
    · obtain ⟨parts, hparts⟩ := h.lists _ (by simp) _ hresult
      simp [hparts.listCovers_iff]
  · simp

end IsExit

theorem Latest.congr {covers covers' : ℤ → XMLNode → Prop} {xs : List XMLNode} {t t' : Table}
    (h : Latest covers xs t t') (hcovers : ∀ x ∈ xs, ∀ n, covers n x ↔ covers' n x) :
    Latest covers' xs t t' := by
  intro n
  have hlast : lastWith (covers n) xs = lastWith (covers' n) xs := by
    unfold lastWith
    rw [List.filter_congr fun x hx => decide_eq_decide.2 (hcovers x hx n)]
  rw [h n, hlast]

theorem readExits_latest {xs : List XMLNode} (h : ∀ x ∈ xs, IsExit x) (t : Tables) :
    ∃ t', readExits xs t = (t', none) ∧ Latest CoversSignal xs t.sgnl t'.sgnl ∧
      Latest CoversResult xs t.exit t'.exit := by
  have hfault : xs.findSome? XMLNode.exitFault = none :=
    List.findSome?_eq_none_iff.2 fun x hx => (h x hx).exitFault_eq_none
  obtain ⟨t', hread, hsgnl, hexit⟩ := exists_readExits_eq xs t
  rw [hfault] at hread
  rw [Faults.upToFault_eq_self hfault] at hsgnl hexit
  exact ⟨t', hread, hsgnl.congr fun x hx => (h x hx).storesSignal_iff,
    hexit.congr fun x hx => (h x hx).storesResult_iff⟩

/-! ## Lookups -/

namespace Table

/-- The list a table holds for `n`, if any. -/
def get (t : Table) (n : ℤ) : Option ActionList := (t n).join

theorem index_of_some {t : Table} {n : ℤ} {al : Option ActionList} (h : t n = some al) :
    t.index n = (al, t) := by
  rw [index, h]

theorem index_of_none {t : Table} {n : ℤ} (h : t n = none) :
    t.index n = (none, Function.update t n (some none)) := by
  rw [index, h]

theorem index_fst (t : Table) (n : ℤ) : (t.index n).1 = t.get n := by
  rw [get]
  rcases hn : t n with _ | al
  · rw [index_of_none hn]
    rfl
  · rw [index_of_some hn]
    rfl

/-- A lookup adds entries without a list only. -/
theorem get_index_snd (t : Table) (n k : ℤ) : (t.index n).2.get k = t.get k := by
  rcases hn : t n with _ | al
  · rw [index_of_none hn, get, get]
    dsimp only
    by_cases hk : k = n
    · rw [hk, Function.update_self, hn]
      rfl
    · rw [Function.update_of_ne hk]
  · rw [index_of_some hn]

end Table

namespace Tables

/-- `get_actions` on the lists that the tables hold. -/
theorem getActions_fst (t : Tables) (res sig : ℤ) : (t.getActions res sig).1 =
    if sig > 0 then (t.sgnl.get sig).or (t.sgnl.get 0) else t.exit.get res := by
  have hfst := t.sgnl.index_fst sig
  have hsnd := t.sgnl.get_index_snd sig 0
  unfold getActions
  split_ifs
  · rcases hi : t.sgnl.index sig with ⟨_ | al, sgnl⟩ <;> rw [hi] at hfst hsnd
    · rw [← hfst, ← hsnd]
      exact sgnl.index_fst 0
    · rw [← hfst]
      rfl
  · exact t.exit.index_fst res

theorem get_getActions_snd (t : Tables) (res sig n : ℤ) :
    (t.getActions res sig).2.sgnl.get n = t.sgnl.get n ∧
      (t.getActions res sig).2.exit.get n = t.exit.get n := by
  have hsnd := t.sgnl.get_index_snd sig n
  unfold getActions
  split_ifs
  · rcases hi : t.sgnl.index sig with ⟨_ | al, sgnl⟩ <;> rw [hi] at hsnd
    · exact ⟨(sgnl.get_index_snd 0 n).trans hsnd, rfl⟩
    · exact ⟨hsnd, rfl⟩
  · exact ⟨rfl, t.exit.get_index_snd res n⟩

theorem get_afterLookups (t : Tables) (lookups : List (ℤ × ℤ)) (n : ℤ) :
    (t.afterLookups lookups).sgnl.get n = t.sgnl.get n ∧
      (t.afterLookups lookups).exit.get n = t.exit.get n := by
  induction lookups generalizing t with
  | nil => exact ⟨rfl, rfl⟩
  | cons q lookups ih =>
    obtain ⟨hsgnl, hexit⟩ := ih (t.getActions q.1 q.2).2
    obtain ⟨hsgnl', hexit'⟩ := t.get_getActions_snd q.1 q.2 n
    exact ⟨hsgnl.trans hsgnl', hexit.trans hexit'⟩

end Tables

theorem Latest.get_eq {covers : ℤ → XMLNode → Prop} {xs : List XMLNode} {t : Table}
    (h : Latest covers xs (fun _ => none) t) (n : ℤ) :
    t.get n = (lastWith (covers n) xs).map actionsOf := by
  rw [Table.get, h n]
  cases lastWith (covers n) xs <;> rfl

/-- The lookups of `Program.getActions` are those of the tables, which make no difference to it. -/
theorem Program.getActions_eq {p : Program} {t : Tables} (hexit : p.exitActions = t.exit.get)
    (hsgnl : p.sgnlActions = t.sgnl.get) (res sig : ℤ) :
    p.getActions res sig = (t.getActions res sig).1 := by
  rw [Tables.getActions_fst, Program.getActions, hexit, hsgnl]
  split_ifs
  · cases t.sgnl.get sig <;> rfl
  · rfl

/-- After an `actions` element is read and after any lookups, `get_actions` returns the list of the
last exit element that covers the signal or else signal 0, and without a signal that of the last one
that covers the result. -/
theorem getActions_readActions {prog actions : XMLNode}
    (h : prog.getNamedChild (str "actions") = some actions)
    (hexits : ∀ x ∈ actions.children, IsExit x) (lookups : List (ℤ × ℤ)) (res sig : ℤ) :
    ∃ t, readActions prog {} = .ok t ∧ ((t.afterLookups lookups).getActions res sig).1 =
      if sig > 0 then ((lastWith (CoversSignal sig) actions.children).or
        (lastWith (CoversSignal 0) actions.children)).map actionsOf
      else (lastWith (CoversResult res) actions.children).map actionsOf := by
  obtain ⟨t, ht, hsgnl, hexit⟩ := readExits_latest hexits {}
  refine ⟨t, ?_, ?_⟩
  · rw [readActions, h]
    dsimp only
    rw [ht]
  · rw [Tables.getActions_fst, (t.get_afterLookups lookups sig).1, (t.get_afterLookups lookups 0).1,
      (t.get_afterLookups lookups res).2, hsgnl.get_eq, hsgnl.get_eq, hexit.get_eq, Option.map_or]

/-- `<exit result="0,2-4"><start /></exit>` and `<exit signal="0" />`. -/
def sampleActions : XMLNode :=
  { name := str "actions"
    children := [
      { name := str "exit", attributes := [(str "result", str "0,2-4")],
        children := [{ name := str "start" }] },
      { name := str "exit", attributes := [(str "signal", str "0")] }] }

def sampleProgram : XMLNode := { name := str "program", children := [sampleActions] }

theorem isValueList_sample : IsValueList (str "0,2-4")
    [.single ⟨str "0", by decide, by decide, by decide⟩,
      .range ⟨str "2", by decide, by decide, by decide⟩ ⟨str "4", by decide, by decide, by decide⟩] :=
  ⟨by simp, by decide⟩

theorem isValueList_zero : IsValueList (str "0")
    [.single ⟨str "0", by decide, by decide, by decide⟩] := ⟨by simp, by decide⟩

theorem isExit_sample : ∀ x ∈ sampleActions.children, IsExit x := by
  intro x hx
  simp only [sampleActions, List.mem_cons, List.not_mem_nil, or_false] at hx
  rcases hx with rfl | rfl <;> refine ⟨?_, ?_⟩
  · intro c hc
    obtain rfl := List.mem_singleton.1 hc
    exact .inr ⟨.inl rfl, by decide⟩
  · intro a ha s hs
    rcases List.mem_pair.1 ha with rfl | rfl
    · cases hs
    · obtain rfl : str "0,2-4" = s := Option.some.inj hs
      exact ⟨_, isValueList_sample⟩
  · simp
  · intro a ha s hs
    rcases List.mem_pair.1 ha with rfl | rfl
    · obtain rfl : str "0" = s := Option.some.inj hs
      exact ⟨_, isValueList_zero⟩
    · cases hs

theorem getActions_readActions_sample :
    ∃ t, readActions sampleProgram {} = .ok t ∧
      ((t.afterLookups [(1, 0), (0, 11)]).getActions 3 0).1 =
        if (0 : ℤ) > 0 then ((lastWith (CoversSignal 0) sampleActions.children).or
          (lastWith (CoversSignal 0) sampleActions.children)).map actionsOf
        else (lastWith (CoversResult 3) sampleActions.children).map actionsOf :=
  getActions_readActions rfl isExit_sample [(1, 0), (0, 11)] 3 0

end Peter
