import Mathlib.Data.List.Infix

/-!
# Runs of a labelled transition function

A `System` steps from a state by a label, or stops with a reason.  `exec` runs a list of labels,
`Along` says that every step of a run has a property, and `Always` that every state of it does.
The rules below turn facts about one step into facts about runs: an invariant of the steps holds in
every state reached (`exec_invariant`), also when only the steps with a given property keep it
(`always_of_along`), and two step properties that agree under an invariant hold along the same
runs (`along_iff_of_invariant`).  `along_iff_frozen` is about what a run leaves alone from some
point on, `exec_refines` carries runs to a more abstract system.  `record` collects what happens in
a run; two runs whose steps go together record the same (`record_eq_of_alike`).
-/

namespace Transition

/-- A deterministic system driven by labels; a step that cannot be made ends with a reason. -/
structure System (σ ℓ ε : Type*) where
  /-- The state after a label, or the reason why there is none. -/
  step : ℓ → σ → Except ε σ

namespace System

variable {σ ℓ ε : Type*} (M : System σ ℓ ε)

/-- Run a list of labels. -/
def exec : List ℓ → σ → Except ε σ
  | [], s => .ok s
  | l :: ls, s => match M.step l s with
    | .ok s' => exec ls s'
    | .error e => .error e

/-- Every step of the run of `ls` from `s` satisfies `P`. -/
def Along (P : σ → ℓ → σ → Prop) : List ℓ → σ → Prop
  | [], _ => True
  | l :: ls, s => ∀ s', M.step l s = .ok s' → P s l s' ∧ Along P ls s'

/-- Every state of the run of `ls` from `s` satisfies `Q`. -/
def Always (Q : σ → Prop) : List ℓ → σ → Prop
  | [], s => Q s
  | l :: ls, s => Q s ∧ ∀ s', M.step l s = .ok s' → Always Q ls s'

/-- What `f` records of each step of the run of `ls` from `s`. -/
def record {α : Type*} (f : σ → ℓ → σ → List α) : List ℓ → σ → List α
  | [], _ => []
  | l :: ls, s => match M.step l s with
    | .ok s' => f s l s' ++ record f ls s'
    | .error _ => []

/-- `s'` is reached from `s` by some run. -/
def Reaches (s s' : σ) : Prop := ∃ ls, M.exec ls s = .ok s'

variable {M}

@[simp] theorem exec_nil (s : σ) : M.exec [] s = .ok s := rfl

theorem exec_cons_eq_ok {l : ℓ} {ls : List ℓ} {s s' : σ} :
    M.exec (l :: ls) s = .ok s' ↔ ∃ m, M.step l s = .ok m ∧ M.exec ls m = .ok s' := by
  rw [exec]
  cases h : M.step l s with
  | error e => simp
  | ok m => simp

theorem exec_append_eq_ok {ls ls' : List ℓ} {s s' : σ} :
    M.exec (ls ++ ls') s = .ok s' ↔ ∃ m, M.exec ls s = .ok m ∧ M.exec ls' m = .ok s' := by
  induction ls generalizing s with
  | nil => simp
  | cons l ls ih =>
    simp only [List.cons_append, exec_cons_eq_ok, ih]
    constructor
    · rintro ⟨a, ha, b, hb, h⟩
      exact ⟨b, ⟨a, ha, hb⟩, h⟩
    · rintro ⟨b, ⟨a, ha, hb⟩, h⟩
      exact ⟨a, ha, b, hb, h⟩

theorem exec_singleton {l : ℓ} {s s' : σ} (h : M.step l s = .ok s') : M.exec [l] s = .ok s' := by
  simp [exec, h]

/-- A step that changes nothing can be repeated. -/
theorem exec_replicate_eq_ok {l : ℓ} {s : σ} (h : M.step l s = .ok s) (n : ℕ) :
    M.exec (List.replicate n l) s = .ok s := by
  induction n with
  | zero => rfl
  | succ n ih =>
    rw [List.replicate_succ, exec_cons_eq_ok]
    exact ⟨s, h, ih⟩

/-! ## Invariants -/

/-- What every step preserves holds at the end of every run. -/
theorem exec_invariant {I : σ → Prop} (hstep : ∀ l s s', I s → M.step l s = .ok s' → I s')
    {ls : List ℓ} {s s' : σ} (hs : I s) (h : M.exec ls s = .ok s') : I s' := by
  induction ls generalizing s with
  | nil => cases h; exact hs
  | cons l ls ih =>
    obtain ⟨m, hm, h⟩ := exec_cons_eq_ok.1 h
    exact ih (hstep l s m hs hm) h

/-- What the steps by some labels preserve holds at the end of the runs of those labels. -/
theorem exec_invariant_of_forall {I : σ → Prop} {P : ℓ → Prop}
    (hstep : ∀ l s s', P l → I s → M.step l s = .ok s' → I s')
    {ls : List ℓ} {s s' : σ} (hP : ∀ l ∈ ls, P l) (hs : I s) (h : M.exec ls s = .ok s') :
    I s' := by
  induction ls generalizing s with
  | nil => cases h; exact hs
  | cons l ls ih =>
    obtain ⟨m, hm, h⟩ := exec_cons_eq_ok.1 h
    obtain ⟨hl, hP⟩ := List.forall_mem_cons.1 hP
    exact ih hP (hstep l s m hl hs hm) h

/-- What the steps with property `P` preserve holds in every state of a run of such steps. -/
theorem always_of_along {I : σ → Prop} {P : σ → ℓ → σ → Prop}
    (hstep : ∀ l s s', I s → M.step l s = .ok s' → P s l s' → I s')
    {ls : List ℓ} {s : σ} (hs : I s) (h : M.Along P ls s) : M.Always I ls s := by
  induction ls generalizing s with
  | nil => exact hs
  | cons l ls ih =>
    refine ⟨hs, fun s' hl => ?_⟩
    obtain ⟨hp, hrest⟩ := h s' hl
    exact ih (hstep l s s' hs hl hp) hrest

theorem Along.mono {P Q : σ → ℓ → σ → Prop} (himp : ∀ s l s', P s l s' → Q s l s')
    {ls : List ℓ} {s : σ} (h : M.Along P ls s) : M.Along Q ls s := by
  induction ls generalizing s with
  | nil => trivial
  | cons l ls ih => exact fun s' hl => ⟨himp s l s' (h s' hl).1, ih (h s' hl).2⟩

/-- A step property that can be decided can be decided along a run. -/
instance decidableAlong {P : σ → ℓ → σ → Prop} [∀ s l s', Decidable (P s l s')] :
    ∀ (ls : List ℓ) (s : σ), Decidable (M.Along P ls s)
  | [], _ => .isTrue trivial
  | l :: ls, s => match h : M.step l s with
    | .ok s' =>
      have : Decidable (M.Along P ls s') := decidableAlong ls s'
      decidable_of_iff (P s l s' ∧ M.Along P ls s')
        ⟨fun hp _ hm => Except.ok.inj (h.symm.trans hm) ▸ hp, fun hall => hall s' h⟩
    | .error _ => .isTrue fun _ hm => nomatch h.symm.trans hm

/-- A step property that holds along a run holds of each step of it. -/
theorem Along.at_step {P : σ → ℓ → σ → Prop} {pre post : List ℓ} {l : ℓ} {s m m' : σ}
    (h : M.Along P (pre ++ l :: post) s) (hpre : M.exec pre s = .ok m)
    (hl : M.step l m = .ok m') : P m l m' := by
  induction pre generalizing s with
  | nil => cases hpre; exact (h m' hl).1
  | cons a pre ih =>
    obtain ⟨n, hn, hpre⟩ := exec_cons_eq_ok.1 hpre
    exact ih (h n hn).2 hpre

theorem Always.mono {P Q : σ → Prop} (himp : ∀ s, P s → Q s) {ls : List ℓ} {s : σ}
    (h : M.Always P ls s) : M.Always Q ls s := by
  induction ls generalizing s with
  | nil => exact himp s h
  | cons l ls ih => exact ⟨himp s h.1, fun s' hl => ih (h.2 s' hl)⟩

/-- `Always` speaks about the ends of all runs of the initial segments of the labels. -/
theorem always_iff_prefixes {Q : σ → Prop} {ls : List ℓ} {s : σ} :
    M.Always Q ls s ↔ ∀ pre, pre <+: ls → ∀ s', M.exec pre s = .ok s' → Q s' := by
  induction ls generalizing s with
  | nil =>
    constructor
    · rintro h pre hpre s' hs'
      rw [List.prefix_nil.1 hpre] at hs'
      cases hs'
      exact h
    · exact fun h => h [] List.prefix_rfl s rfl
  | cons l ls ih =>
    constructor
    · rintro ⟨h0, h⟩ pre hpre s' hs'
      rcases List.prefix_cons_iff.1 hpre with rfl | ⟨t, rfl, ht⟩
      · cases hs'
        exact h0
      · obtain ⟨m, hm, hs'⟩ := exec_cons_eq_ok.1 hs'
        exact (ih.1 (h m hm)) t ht s' hs'
    · intro h
      refine ⟨h [] (List.nil_prefix) s rfl, fun m hm => ih.2 fun pre hpre s' hs' => ?_⟩
      exact h (l :: pre) (List.cons_prefix_cons.2 ⟨rfl, hpre⟩) s'
        (exec_cons_eq_ok.2 ⟨m, hm, hs'⟩)

/-- A property of all states is one of the first state and of the state after each step. -/
theorem always_iff_along {Q : σ → Prop} {ls : List ℓ} {s : σ} :
    M.Always Q ls s ↔ Q s ∧ M.Along (fun _ _ s' => Q s') ls s := by
  induction ls generalizing s with
  | nil => simp [Always, Along]
  | cons l ls ih =>
    constructor
    · rintro ⟨h0, h⟩
      exact ⟨h0, fun s' hl => ih.1 (h s' hl)⟩
    · rintro ⟨h0, h⟩
      exact ⟨h0, fun s' hl => ih.2 (h s' hl)⟩

/-- Two step properties that agree where an invariant holds, which the steps with the first one
preserve, hold along the same runs. -/
theorem along_iff_of_invariant {I : σ → Prop} {P Q : σ → ℓ → σ → Prop}
    (hiff : ∀ l s s', I s → M.step l s = .ok s' → (P s l s' ↔ Q s l s'))
    (hstep : ∀ l s s', I s → M.step l s = .ok s' → P s l s' → I s')
    {ls : List ℓ} {s : σ} (hs : I s) : M.Along P ls s ↔ M.Along Q ls s := by
  induction ls generalizing s with
  | nil => exact Iff.rfl
  | cons l ls ih =>
    constructor
    · intro h s' hl
      obtain ⟨hp, hrest⟩ := h s' hl
      exact ⟨(hiff l s s' hs hl).1 hp, (ih (hstep l s s' hs hl hp)).1 hrest⟩
    · intro h s' hl
      obtain ⟨hq, hrest⟩ := h s' hl
      have hp := (hiff l s s' hs hl).2 hq
      exact ⟨hp, (ih (hstep l s s' hs hl hp)).2 hrest⟩

/-- What no step brings about holds all along a run at whose end it holds. -/
theorem always_of_exec {I Q : σ → Prop} (hback : ∀ l s s', I s → M.step l s = .ok s' → Q s' → Q s)
    (hI : ∀ l s s', I s → M.step l s = .ok s' → I s') {ls : List ℓ} {s s' : σ} (hs : I s)
    (h : M.exec ls s = .ok s') (hQ : Q s') : M.Always Q ls s := by
  have hfirst : ∀ {ls : List ℓ} {s : σ}, I s → M.exec ls s = .ok s' → Q s := by
    intro ls
    induction ls with
    | nil =>
      intro s _ h
      cases h
      exact hQ
    | cons l ls ih =>
      intro s hs h
      obtain ⟨m, hm, h⟩ := exec_cons_eq_ok.1 h
      exact hback l s m hs hm (ih (hI l s m hs hm) h)
  induction ls generalizing s with
  | nil => exact hfirst hs h
  | cons l ls ih =>
    refine ⟨hfirst hs h, fun m' hm' => ?_⟩
    obtain ⟨m, hm, h⟩ := exec_cons_eq_ok.1 h
    obtain rfl : m = m' := Except.ok.inj (hm.symm.trans hm')
    exact ih (hI l s m hs hm) h

theorem Along.and {P Q : σ → ℓ → σ → Prop} {ls : List ℓ} {s : σ} (hp : M.Along P ls s)
    (hq : M.Along Q ls s) : M.Along (fun s l s' => P s l s' ∧ Q s l s') ls s := by
  induction ls generalizing s with
  | nil => trivial
  | cons l ls ih =>
    exact fun s' hl => ⟨⟨(hp s' hl).1, (hq s' hl).1⟩, ih (hp s' hl).2 (hq s' hl).2⟩

/-- A step property of the labels alone. -/
theorem along_of_forall {P : σ → ℓ → σ → Prop} {ls : List ℓ} (h : ∀ l ∈ ls, ∀ s s', P s l s')
    (s : σ) : M.Along P ls s := by
  induction ls generalizing s with
  | nil => trivial
  | cons l ls ih =>
    obtain ⟨hl, h⟩ := List.forall_mem_cons.1 h
    exact fun s' _ => ⟨hl s s', ih h s'⟩

/-- Steps with property `P` keep an invariant under which they have property `Q`. -/
theorem Along.imp_of_invariant {I : σ → Prop} {P Q : σ → ℓ → σ → Prop}
    (hQ : ∀ l s s', I s → M.step l s = .ok s' → P s l s' → Q s l s')
    (hstep : ∀ l s s', I s → M.step l s = .ok s' → P s l s' → I s')
    {ls : List ℓ} {s : σ} (hs : I s) (h : M.Along P ls s) : M.Along Q ls s := by
  induction ls generalizing s with
  | nil => trivial
  | cons l ls ih =>
    intro s' hl
    obtain ⟨hp, hrest⟩ := h s' hl
    exact ⟨hQ l s s' hs hl hp, ih (hstep l s s' hs hl hp) hrest⟩

/-- A step property that an invariant and the step before give holds along every run. -/
theorem along_of_invariant {I : σ → Prop} {P : σ → ℓ → σ → Prop}
    (hP : ∀ l s s', I s → M.step l s = .ok s' → P s l s')
    (hstep : ∀ l s s', I s → M.step l s = .ok s' → I s')
    {ls : List ℓ} {s : σ} (hs : I s) : M.Along P ls s := by
  induction ls generalizing s with
  | nil => trivial
  | cons l ls ih => exact fun s' hl => ⟨hP l s s' hs hl, ih (hstep l s s' hs hl)⟩

/-- Where `E` never ends, the steps after it begins leave `f` alone when the rest of the run does. -/
theorem along_iff_frozen {ι α : Type*} {E : ι → σ → Prop} {f : ι → σ → α}
    (hstay : ∀ i l s s', M.step l s = .ok s' → E i s → E i s') {ls : List ℓ} {s : σ} :
    M.Along (fun m _ m' => ∀ i, E i m → f i m' = f i m) ls s ↔
      ∀ pre post, pre ++ post <+: ls → ∀ m m', M.exec pre s = .ok m → M.exec post m = .ok m' →
        ∀ i, E i m → f i m' = f i m := by
  induction ls generalizing s with
  | nil =>
    refine iff_of_true trivial fun pre post hls m m' hpre hpost i _ => ?_
    obtain ⟨rfl, rfl⟩ := List.append_eq_nil_iff.1 (List.prefix_nil.1 hls)
    cases hpost
    rfl
  | cons l ls ih =>
    constructor
    · intro h pre post hls m m' hpre hpost i hE
      cases pre with
      | nil =>
        cases hpre
        cases post with
        | nil =>
          cases hpost
          rfl
        | cons a post =>
          obtain ⟨rfl, hls'⟩ := List.cons_prefix_cons.1 hls
          obtain ⟨n, hn, hpost⟩ := exec_cons_eq_ok.1 hpost
          obtain ⟨hfirst, hrest⟩ := h n hn
          rw [← hfirst i hE]
          exact ih.1 hrest [] post hls' n m' rfl hpost i (hstay i a s n hn hE)
      | cons a pre =>
        obtain ⟨rfl, hls'⟩ := List.cons_prefix_cons.1 hls
        obtain ⟨n, hn, hpre⟩ := exec_cons_eq_ok.1 hpre
        exact ih.1 (h n hn).2 pre post hls' m m' hpre hpost i hE
    · intro h n hn
      constructor
      · exact h [] [l] (List.cons_prefix_cons.2 ⟨rfl, List.nil_prefix⟩) s n rfl
          (exec_singleton hn)
      · exact ih.2 fun pre post hls m m' hpre hpost => h (l :: pre) post
          (List.cons_prefix_cons.2 ⟨rfl, hls⟩) m m' (exec_cons_eq_ok.2 ⟨n, hn, hpre⟩) hpost

/-- A run that leaves a step property has a first step that does. -/
theorem exists_step_of_not_along {P : σ → ℓ → σ → Prop} {ls : List ℓ} {s : σ}
    (h : ¬M.Along P ls s) : ∃ pre l post m m', ls = pre ++ l :: post ∧ M.Along P pre s ∧
      M.exec pre s = .ok m ∧ M.step l m = .ok m' ∧ ¬P m l m' := by
  induction ls generalizing s with
  | nil => exact absurd trivial h
  | cons l ls ih =>
    simp only [Along, not_forall] at h
    obtain ⟨s', hl, h⟩ := h
    by_cases hP : P s l s'
    · obtain ⟨pre, l', post, m, m', rfl, hpre, hexec, hstep, hm⟩ :=
        ih fun hrest => h ⟨hP, hrest⟩
      refine ⟨l :: pre, l', post, m, m', rfl, fun s'' hs'' => ?_,
        exec_cons_eq_ok.2 ⟨s', hl, hexec⟩, hstep, hm⟩
      rw [hl] at hs''
      cases hs''
      exact ⟨hP, hpre⟩
    · exact ⟨[], l, ls, s, s', rfl, trivial, rfl, hl, hP⟩

/-- Some step of the run of `ls` from `s` to `s'` satisfies `P`. -/
def Sometime (M : System σ ℓ ε) (P : σ → ℓ → σ → Prop) (ls : List ℓ) (s s' : σ) : Prop :=
  ∃ pre l post m m', ls = pre ++ l :: post ∧ M.exec pre s = .ok m ∧ M.step l m = .ok m' ∧
    M.exec post m' = .ok s' ∧ P m l m'

theorem sometime_of_not_along {P : σ → ℓ → σ → Prop} {ls : List ℓ} {s s' : σ}
    (hno : ¬M.Along (fun m l m' => ¬P m l m') ls s) (h : M.exec ls s = .ok s') :
    M.Sometime P ls s s' := by
  obtain ⟨pre, l, post, m, m', rfl, -, hpre, hl, hP⟩ := exists_step_of_not_along hno
  obtain ⟨m₁, hpre', h⟩ := exec_append_eq_ok.1 h
  obtain rfl : m₁ = m := Except.ok.inj (hpre'.symm.trans hpre)
  obtain ⟨m₂, hl', hpost⟩ := exec_cons_eq_ok.1 h
  obtain rfl : m₂ = m' := Except.ok.inj (hl'.symm.trans hl)
  exact ⟨pre, l, post, m₁, m₂, rfl, hpre, hl, hpost, not_not.1 hP⟩

theorem Sometime.prepend {P : σ → ℓ → σ → Prop} {ls ls' : List ℓ} {s m s' : σ}
    (h : M.exec ls s = .ok m) (h' : M.Sometime P ls' m s') : M.Sometime P (ls ++ ls') s s' := by
  obtain ⟨pre, l, post, n, n', rfl, hpre, hl, hpost, hP⟩ := h'
  exact ⟨ls ++ pre, l, post, n, n', (List.append_assoc ..).symm,
    exec_append_eq_ok.2 ⟨m, h, hpre⟩, hl, hpost, hP⟩

theorem Sometime.extend {P : σ → ℓ → σ → Prop} {ls ls' : List ℓ} {s m s' : σ}
    (h : M.Sometime P ls s m) (h' : M.exec ls' m = .ok s') : M.Sometime P (ls ++ ls') s s' := by
  obtain ⟨pre, l, post, n, n', rfl, hpre, hl, hpost, hP⟩ := h
  refine ⟨pre, l, post ++ ls', n, n', ?_, hpre, hl, exec_append_eq_ok.2 ⟨m, hpost, h'⟩, hP⟩
  rw [List.append_assoc, List.cons_append]

/-- Some step of the run satisfies `P`, and `Q` holds in all states up to it. -/
def Until (M : System σ ℓ ε) (Q : σ → Prop) (P : σ → ℓ → σ → Prop) (ls : List ℓ) (s s' : σ) :
    Prop :=
  ∃ pre l post m m', ls = pre ++ l :: post ∧ M.exec pre s = .ok m ∧ M.step l m = .ok m' ∧
    M.exec post m' = .ok s' ∧ M.Always Q pre s ∧ P m l m'

/-- What steps without property `P` keep holds up to the first step with it, where a step with
property `P'` comes later at most. -/
theorem Sometime.until {I Q : σ → Prop} {P P' : σ → ℓ → σ → Prop} (hQ : ∀ s, I s → Q s)
    (hstep : ∀ l s s', I s → M.step l s = .ok s' → I s' ∨ P s l s')
    (hlast : ∀ l s s', I s → M.step l s = .ok s' → P' s l s' → P s l s') {ls : List ℓ} {s s' : σ}
    (hs : I s) (h : M.Sometime P' ls s s') : M.Until Q P ls s s' := by
  obtain ⟨pre, l, post, m, m', rfl, hpre, hl, hpost, hP⟩ := h
  induction pre generalizing s with
  | nil =>
    obtain rfl : s = m := Except.ok.inj hpre
    exact ⟨[], l, post, s, m', rfl, rfl, hl, hpost, hQ s hs, hlast l s m' hs hl hP⟩
  | cons a pre ih =>
    obtain ⟨s₁, ha, hrest⟩ := exec_cons_eq_ok.1 hpre
    rcases hstep a s s₁ hs ha with hs₁ | hP₁
    · obtain ⟨pre', l', post', n, n', he, hpre', hl', hpost', hQ', hP'⟩ := ih hs₁ hrest
      refine ⟨a :: pre', l', post', n, n', by rw [List.cons_append, he, List.cons_append],
        exec_cons_eq_ok.2 ⟨s₁, ha, hpre'⟩, hl', hpost', ⟨hQ s hs, fun s₂ ha₂ => ?_⟩, hP'⟩
      obtain rfl := Except.ok.inj (ha.symm.trans ha₂)
      exact hQ'
    · refine ⟨[], a, pre ++ l :: post, s, s₁, rfl, rfl, ha, ?_, hQ s hs, hP₁⟩
      exact exec_append_eq_ok.2 ⟨m, hrest, exec_cons_eq_ok.2 ⟨m', hl, hpost⟩⟩

/-- What steps without property `P` keep holds at the end of a run, or a step of it has the
property. -/
theorem invariant_or_sometime {I : σ → Prop} {P : σ → ℓ → σ → Prop}
    (hstep : ∀ l s s', I s → M.step l s = .ok s' → I s' ∨ P s l s') {ls : List ℓ} {s s' : σ}
    (hs : I s) (h : M.exec ls s = .ok s') : I s' ∨ M.Sometime P ls s s' := by
  by_cases hno : M.Along (fun m l m' => ¬P m l m') ls s
  · left
    have hall := always_of_along
      (fun l m m' hm hl hP => (hstep l m m' hm hl).resolve_right hP) hs hno
    exact always_iff_prefixes.1 hall ls List.prefix_rfl s' h
  · exact .inr (sometime_of_not_along hno h)

/-! ## Records -/

theorem record_cons {α : Type*} {f : σ → ℓ → σ → List α} {l : ℓ} {ls : List ℓ} {s s' : σ}
    (h : M.step l s = .ok s') : M.record f (l :: ls) s = f s l s' ++ M.record f ls s' := by
  rw [record, h]

/-- Where each step records the items that a counter numbers on its way, so does the whole run. -/
theorem record_eq_map {α : Type*} {f : σ → ℓ → σ → List α} {I : σ → Prop} {c : σ → ℕ}
    {g : ℕ → α} (hI : ∀ l s s', I s → M.step l s = .ok s' → I s')
    (hstep : ∀ l s s', I s → M.step l s = .ok s' →
      c s ≤ c s' ∧ f s l s' = (List.range' (c s) (c s' - c s)).map g)
    {ls : List ℓ} {s s' : σ} (hs : I s) (h : M.exec ls s = .ok s') :
    c s ≤ c s' ∧ M.record f ls s = (List.range' (c s) (c s' - c s)).map g := by
  induction ls generalizing s with
  | nil =>
    cases h
    simp [record]
  | cons l ls ih =>
    obtain ⟨m, hm, h⟩ := exec_cons_eq_ok.1 h
    obtain ⟨hle, hf⟩ := hstep l s m hs hm
    obtain ⟨hle', hrec⟩ := ih (hI l s m hs hm) h
    refine ⟨hle.trans hle', ?_⟩
    rw [record_cons hm, hf, hrec, ← List.map_append]
    have hmid : c m = c s + (c m - c s) := by omega
    have hsum : c s' - c s = (c m - c s) + (c s' - c m) := by omega
    have happend := List.range'_append_1 (s := c s) (m := c m - c s) (n := c s' - c m)
    rw [← hmid, ← hsum] at happend
    rw [happend]

/-- When every step is matched by a run of an abstract system, so is every run. -/
theorem exec_refines {τ κ δ : Type*} {A : System τ κ δ} {abs : σ → τ} {I : σ → Prop}
    (hinv : ∀ l s s', I s → M.step l s = .ok s' → I s')
    (hstep : ∀ l s s', I s → M.step l s = .ok s' → A.Reaches (abs s) (abs s'))
    {ls : List ℓ} {s s' : σ} (hs : I s) (h : M.exec ls s = .ok s') :
    A.Reaches (abs s) (abs s') := by
  induction ls generalizing s with
  | nil => cases h; exact ⟨[], rfl⟩
  | cons l ls ih =>
    obtain ⟨m, hm, h⟩ := exec_cons_eq_ok.1 h
    obtain ⟨es, hes⟩ := hstep l s m hs hm
    obtain ⟨es', hes'⟩ := ih (hinv l s m hs hm) h
    exact ⟨es ++ es', exec_append_eq_ok.2 ⟨_, hes, hes'⟩⟩

/-! ## Projection -/

/-- When the steps that concern a part are matched by steps of the part and the others leave it
alone, a run is one of the part without the others. -/
theorem exec_filter {τ κ δ : Type*} {N : System τ κ δ} {abs : σ → τ} {concerns : ℓ → Bool}
    {alike : ℓ → κ → Prop} {P : σ → ℓ → σ → Prop}
    (hpart : ∀ l s s', M.step l s = .ok s' → P s l s' → concerns l = true →
      ∃ l', alike l l' ∧ N.step l' (abs s) = .ok (abs s'))
    (hother : ∀ l s s', M.step l s = .ok s' → P s l s' → concerns l = false → abs s' = abs s)
    {ls : List ℓ} {s s' : σ} (hP : M.Along P ls s) (h : M.exec ls s = .ok s') :
    ∃ ls', List.Forall₂ alike (ls.filter concerns) ls' ∧ N.exec ls' (abs s) = .ok (abs s') := by
  induction ls generalizing s with
  | nil => cases h; exact ⟨[], .nil, rfl⟩
  | cons l ls ih =>
    obtain ⟨m, hm, h⟩ := exec_cons_eq_ok.1 h
    obtain ⟨hl, hrest⟩ := hP m hm
    obtain ⟨ls', hls, hexec⟩ := ih hrest h
    cases hc : concerns l with
    | true =>
      obtain ⟨l', hl', hstep⟩ := hpart l s m hm hl hc
      rw [List.filter_cons_of_pos hc]
      exact ⟨l' :: ls', .cons hl' hls, exec_cons_eq_ok.2 ⟨_, hstep, hexec⟩⟩
    | false =>
      rw [List.filter_cons_of_neg (by simp [hc]), ← hother l s m hm hl hc]
      exact ⟨ls', hls, hexec⟩

end System

end Transition
