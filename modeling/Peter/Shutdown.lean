import Peter.Linked

/-!
# What a shutdown leaves behind

The shutdown counts the programs it has signalled and takes one off for every child it reaps; when
programs are left it sends `SIGKILL` to those with a pid.  The count is right as long as every
child is in the pid field of its program when the shutdown begins (`shutdown_leaves_nothing`).  The
`maxruntime` branch has cleared the pid field of a process that ignores its signal, and such a
process outlives the shutdown (`shutdown_leaves_nothing_fails`).
-/

namespace Peter

/-- The child was sent `SIGKILL`. -/
def Child.killed (c : Child) : Prop := ∃ s ∈ c.signals, s.sig = 9

namespace OS

variable {os os' os'' : OS} {i : ℕ}

/-- Scheduler `i` has no new children, and those it still has were sent the same signals or more. -/
def Shrinks (i : ℕ) (os os' : OS) : Prop := ∀ c' ∈ os'.children, c'.thread = i →
  ∃ c ∈ os.children, c.pid = c'.pid ∧ c.key = c'.key ∧ c.signals ⊆ c'.signals

theorem Shrinks.refl (os : OS) : os.Shrinks i os := fun c hc _ =>
  ⟨c, hc, rfl, rfl, List.Subset.refl _⟩

theorem thread_of_key {c c' : Child} (h : c.key = c'.key) : c.thread = c'.thread :=
  congrArg Prod.fst h

theorem owner_of_key {c c' : Child} (h : c.key = c'.key) : c.owner = c'.owner :=
  congrArg Prod.snd h

theorem Shrinks.trans (h : os.Shrinks i os') (h' : os'.Shrinks i os'') : os.Shrinks i os'' := by
  intro c'' hc'' hi
  obtain ⟨c', hc', hpid', hkey', hsig'⟩ := h' c'' hc'' hi
  obtain ⟨c, hc, hpid, hkey, hsig⟩ := h c' hc' ((thread_of_key hkey').trans hi)
  exact ⟨c, hc, hpid.trans hpid', hkey.trans hkey', List.Subset.trans hsig hsig'⟩

theorem shrinks_map {f : Child → Child} {trace : List Obs} (hpid : ∀ c, (f c).pid = c.pid)
    (hkey : ∀ c, (f c).key = c.key) (hsig : ∀ c, c.signals ⊆ (f c).signals) :
    os.Shrinks i ⟨os.children.map f, trace⟩ := by
  intro c' hc' _
  obtain ⟨c, hc, rfl⟩ := List.mem_map.1 hc'
  exact ⟨c, hc, (hpid c).symm, (hkey c).symm, hsig c⟩

theorem kill_shrinks (os : OS) (j : ℕ) (p : ProgPtr) (pid sig : ℤ) (cause : Cause) (ok : Bool) :
    os.Shrinks i (os.kill j p pid sig cause ok) := by
  apply shrinks_map
  · intro c
    split_ifs <;> rfl
  · intro c
    split_ifs <;> rfl
  · intro c
    split_ifs
    · exact List.subset_append_left _ _
    · exact List.Subset.refl _

theorem reap_shrinks (os : OS) (j : ℕ) (c : Child) (p : Option ProgPtr) (slot : ℤ) :
    os.Shrinks i (os.reap j c p slot) := by
  intro c' hc' _
  exact ⟨c', (List.mem_filter.1 hc').1, rfl, rfl, List.Subset.refl _⟩

/-- Does program `p` of scheduler `i` have an unreaped process? -/
def hasChild (os : OS) (i : ℕ) (p : ProgPtr) : Bool := os.children.any fun c => c.key = (i, p)

theorem hasChild_iff {p : ProgPtr} :
    os.hasChild i p ↔ ∃ c ∈ os.children, c.thread = i ∧ c.owner = p := by
  simp [hasChild, Child.key, Prod.ext_iff]

/-- How many of these programs of scheduler `i` have an unreaped process. -/
def left (os : OS) (i : ℕ) (l : List ProgPtr) : ℕ := l.countP (os.hasChild i)

theorem Shrinks.hasChild (h : os.Shrinks i os') {p : ProgPtr} (hp : os'.hasChild i p) :
    os.hasChild i p := by
  obtain ⟨c', hc', hi, rfl⟩ := hasChild_iff.1 hp
  obtain ⟨c, hc, -, hkey, -⟩ := h c' hc' hi
  exact hasChild_iff.2 ⟨c, hc, (thread_of_key hkey).trans hi, owner_of_key hkey⟩

theorem Shrinks.left_le (h : os.Shrinks i os') (l : List ProgPtr) : os'.left i l ≤ os.left i l :=
  List.countP_mono_left fun _ _ => h.hasChild

/-- When a program loses its process, there is one less. -/
theorem Shrinks.left_lt (h : os.Shrinks i os') {l : List ProgPtr} {p : ProgPtr} (hp : p ∈ l)
    (hold : os.hasChild i p) (hnew : ¬os'.hasChild i p) : os'.left i l < os.left i l := by
  obtain ⟨l₁, l₂, rfl⟩ := List.append_of_mem hp
  have h₁ := h.left_le l₁
  have h₂ := h.left_le l₂
  simp only [left, List.countP_append, List.countP_cons, hold, hnew] at h₁ h₂ ⊢
  simp only [Bool.false_eq_true, if_false, if_true]
  omega

end OS

/-- An entry that is no fork of scheduler `i` gives it no children. -/
theorem step_shrinks {e : Entry} {b b' : Books} {i : ℕ} (h : supervisor.step e b = .ok b')
    (hfork : e.Forks fun k => k.1 ≠ i) : b.os.Shrinks i b'.os := by
  cases e with
  | fork k hint t =>
    obtain ⟨-, rfl⟩ := step_fork.1 h
    intro c' hc' hi
    rcases List.mem_append.1 hc' with hc' | hc'
    · exact ⟨c', hc', rfl, rfl, List.Subset.refl _⟩
    · rw [List.mem_singleton.1 hc'] at hi
      exact absurd hi hfork
  | enter k => cases h; exact .refl _
  | signal k sig cause ok =>
    obtain ⟨-, rfl⟩ := step_signal.1 h
    exact OS.kill_shrinks _ _ _ _ _ _ _
  | expire k sig ok =>
    obtain ⟨-, rfl⟩ := step_expire.1 h
    exact OS.kill_shrinks _ _ _ _ _ _ _
  | bury j c p ev =>
    obtain ⟨-, rfl⟩ := step_bury.1 h
    exact OS.reap_shrinks _ _ _ _ _
  | lose j c =>
    obtain ⟨-, rfl⟩ := step_lose.1 h
    exact OS.reap_shrinks _ _ _ _ _
  | dies pid status =>
    cases h
    apply OS.shrinks_map <;> intro c <;> split_ifs <;> first | rfl | exact List.Subset.refl _
  | leaves pid =>
    cases h
    apply OS.shrinks_map <;> intro c <;> split_ifs <;> first | rfl | exact List.Subset.refl _

/-- Every child of the scheduler is in the pid field of its program, and found under its pid. -/
def Scheduler.Knows (i : ℕ) (s : Scheduler) (os : OS) : Prop := ∀ c ∈ os.children, c.thread = i →
  (s.prog c.owner).pid = c.pid ∧ s.running c.pid = some c.owner

theorem Scheduler.Knows.shrinks {i : ℕ} {s : Scheduler} {os os' : OS} (h : s.Knows i os)
    (hs : os.Shrinks i os') : s.Knows i os' := by
  intro c' hc' hi
  obtain ⟨c, hc, hpid, hkey, -⟩ := hs c' hc' hi
  have hc := h c hc ((OS.thread_of_key hkey).trans hi)
  rwa [hpid, OS.owner_of_key hkey] at hc

namespace Thread

variable {t t' : Thread} {os os' : OS} {env : ℕ → Env} {i : ℕ}

/-! ## One step of the shutdown -/

/-- What the shutdown of scheduler `i` knows of its children: `p_count` is at least the number of
programs with a process, and a program that the second phase has passed was sent `SIGKILL`. -/
def Shutdown (i : ℕ) (t : Thread) (os : OS) : Prop := match t.pc with
  | .ending pi pCount => t.s.Knows i os ∧ os.left i (t.s.programs.take pi) ≤ pCount
  | .waiting _ pCount _ => t.s.Knows i os ∧ os.left i t.s.programs ≤ pCount
  | .waitFor _ pCount _ _ => t.s.Knows i os ∧ os.left i t.s.programs ≤ pCount
  | .killing pi _ => t.s.Knows i os ∧
    ∀ c ∈ os.children, c.thread = i → c.owner ∈ t.s.programs.take pi → c.killed
  | .reaping _ _ _ => ∀ c ∈ os.children, c.thread = i → c.killed
  | _ => True

/-- The program that the shutdown is about to signal. -/
def signals (t : Thread) : Option ProgPtr := match t.pc with
  | .ending pi _ => t.s.programs[pi]?
  | .killing pi _ => t.s.programs[pi]?
  | _ => none

/-- The shutdown begins with every child in the pid field of its program, and its first phase takes
no child of another scheduler for one of its own. -/
structure Orderly (i : ℕ) (env : ℕ → Env) (t : Thread) (os : OS) : Prop where
  knows : t.pc = .loop → t.s.mode = .off → t.s.Knows i os
  own : ∀ tries pCount kCount pri c, t.pc = .waitFor tries pCount kCount pri →
    t.reaps (env 0) os = some c → (t.s.running c.pid).isSome → c.thread = i

theorem killed_of_shrinks {c c' : Child} (h : c.killed) (hs : c.signals ⊆ c'.signals) :
    c'.killed := by
  obtain ⟨s, hmem, h9⟩ := h
  exact ⟨s, hs hmem, h9⟩

/-- Others leave a shutdown as it is. -/
theorem Shutdown.shrinks (h : t.Shutdown i os) (hs : os.Shrinks i os') : t.Shutdown i os' := by
  unfold Shutdown at h ⊢
  split at h
  · exact ⟨h.1.shrinks hs, le_trans (Int.ofNat_le.2 (hs.left_le _)) h.2⟩
  · exact ⟨h.1.shrinks hs, le_trans (Int.ofNat_le.2 (hs.left_le _)) h.2⟩
  · exact ⟨h.1.shrinks hs, le_trans (Int.ofNat_le.2 (hs.left_le _)) h.2⟩
  · refine ⟨h.1.shrinks hs, fun c' hc' hi hmem => ?_⟩
    obtain ⟨c, hc, -, hkey, hsig⟩ := hs c' hc' hi
    refine killed_of_shrinks (h.2 c hc ((OS.thread_of_key hkey).trans hi) ?_) hsig
    rwa [OS.owner_of_key hkey]
  · intro c' hc' hi
    obtain ⟨c, hc, -, hkey, hsig⟩ := hs c' hc' hi
    exact killed_of_shrinks (h c hc ((OS.thread_of_key hkey).trans hi)) hsig
  · trivial

/-- When the shutdown is over, every child left was sent `SIGKILL`. -/
theorem Shutdown.killed (h : t.Shutdown i os) (hfin : t.finishing)
    (howner : ∀ c ∈ os.children, c.thread = i → c.owner ∈ t.s.programs) :
    ∀ c ∈ os.children, c.thread = i → c.killed := by
  intro c hc hi
  unfold Shutdown at h
  rcases finishing_cases hfin with ⟨tries, pCount, kCount, hpc, -, hleft⟩ | ⟨_, _, _, hpc, -⟩
  · rw [hpc] at h
    have hzero : os.left i t.s.programs = 0 := by
      have := h.2
      omega
    have hno := List.countP_eq_zero.1 hzero c.owner (howner c hc hi)
    exact absurd (OS.hasChild_iff.2 ⟨c, hc, hi, rfl⟩) hno
  · rw [hpc] at h
    exact h c hc hi

/-- Reaping a child of its own takes one from the programs left. -/
theorem bury_left {c : Child} {p : ProgPtr} {now : ℤ} {slot : ℤ} (hk : t.s.Knows i os)
    (hc : c ∈ os.children) (hci : c.thread = i) (hp : t.s.running c.pid = some p)
    (hmem : p ∈ t.s.programs) {w : World}
    (hw : w = World.bury ⟨t.s, os.reap i c (some p) slot⟩ c p now) :
    w.s.Knows i w.os ∧ w.os.left i w.s.programs < os.left i t.s.programs := by
  obtain ⟨hslot, hrun⟩ := hk c hc hci
  rw [hp] at hrun
  cases hrun
  have hgone : ∀ d ∈ w.os.children, d.thread = i → d ∈ os.children ∧ d.pid ≠ c.pid ∧
      d.owner ≠ c.owner := by
    intro d hd hdi
    rw [hw] at hd
    obtain ⟨hd, hne⟩ := List.mem_filter.1 hd
    have hne : d.pid ≠ c.pid := by simpa using hne
    refine ⟨hd, hne, fun ho => hne ?_⟩
    rw [← (hk d hd hdi).1, ho, hslot]
  constructor
  · intro d hd hdi
    obtain ⟨hd, hne, ho⟩ := hgone d hd hdi
    obtain ⟨hslot', hrun'⟩ := hk d hd hdi
    rw [hw]
    simp only [World.bury, World.setRunning, World.modifyProg, Function.update_of_ne ho,
      Function.update_of_ne hne]
    exact ⟨hslot', hrun'⟩
  · have hs : os.Shrinks i w.os := hw ▸ os.reap_shrinks i c (some c.owner) slot
    have hprog : w.s.programs = t.s.programs := hw ▸ rfl
    rw [hprog]
    refine hs.left_lt hmem (OS.hasChild_iff.2 ⟨c, hc, hci, rfl⟩) fun hnew => ?_
    obtain ⟨d, hd, hdi, ho⟩ := OS.hasChild_iff.1 hnew
    exact (hgone d hd hdi).2.2 ho

/-- `kill` succeeds on the process of the program signalled. -/
def KillSucceeds (e : Env) (t : Thread) (os : OS) : Prop :=
  ∀ p, t.signals = some p → (t.s.prog p).pid ∈ os.pids → e.killOk

theorem sendSignal_of_pos {s : Scheduler} {p : ProgPtr} {e : Env} {sig : ℤ} {cause : Cause}
    (hpos : (s.prog p).pid > 0) : World.sendSignal ⟨s, os⟩ e p sig cause =
      (if e.killOk then 0 else -1, ⟨s, os.kill s.self p (s.prog p).pid sig cause e.killOk⟩) :=
  if_neg (by simp only [World.prog]; omega)

theorem left_take_succ {pi : ℕ} {p : ProgPtr} {l : List ProgPtr} (hp : l[pi]? = some p) :
    os.left i (l.take (pi + 1)) = os.left i (l.take pi) + if os.hasChild i p then 1 else 0 := by
  rw [List.take_add_one, hp, OS.left, List.countP_append, OS.left]
  simp [List.countP_cons]

theorem take_of_getElem?_none {pi : ℕ} {l : List ProgPtr} (hp : l[pi]? = none) :
    l.take pi = l := List.take_of_length_le (List.getElem?_eq_none_iff.1 hp)

theorem mem_take_succ {pi : ℕ} {p q : ProgPtr} {l : List ProgPtr} (hp : l[pi]? = some p)
    (hq : q ∈ l.take (pi + 1)) : q ∈ l.take pi ∨ q = p := by
  rw [List.take_add_one, hp] at hq
  simpa using hq

/-- A program with a process is signalled and counted. -/
theorem ending_step {pi : ℕ} {pCount : ℤ} {p : ProgPtr} {e : Env} (hp : t.s.programs[pi]? = some p)
    (hk : t.s.Knows i os) (hpid : ∀ c ∈ os.children, c.thread = i → 0 < c.pid)
    (hok : (t.s.prog p).pid ∈ os.pids → e.killOk)
    (hleft : os.left i (t.s.programs.take pi) ≤ pCount) :
    let r := if (t.s.prog p).pid > 0 then if e.killOk then pCount + 1 else pCount else pCount
    os.left i (t.s.programs.take (pi + 1)) ≤ r := by
  rw [left_take_succ hp]
  by_cases hchild : os.hasChild i p
  · obtain ⟨c, hc, hci, rfl⟩ := OS.hasChild_iff.1 hchild
    have hslot := (hk c hc hci).1
    have hpos := hpid c hc hci
    have hkill := hok (hslot ▸ List.mem_map_of_mem hc)
    rw [if_pos hchild, hslot, if_pos hpos, if_pos hkill]
    push_cast
    omega
  · rw [if_neg hchild]
    dsimp only
    split_ifs <;> omega

/-- The children of scheduler `i` are processes of the programs of this thread. -/
structure Parent (i : ℕ) (t : Thread) (os : OS) : Prop where
  self : t.s.self = i
  owner : ∀ c ∈ os.children, c.thread = i → c.owner ∈ t.s.programs
  pid : ∀ c ∈ os.children, c.thread = i → 0 < c.pid

/-- The programs that are passed over have no process. -/
theorem Shutdown.jump {e : Env} {pc : Pc} (hs : t.Shutdown i os) (hpar : t.Parent i os)
    (hkill : KillSucceeds e t os) (hj : t.Jump pc) : Shutdown i { t with pc } os := by
  unfold Shutdown at hs
  cases hj with
  | limited => trivial
  | poll => trivial
  | again => trivial
  | @idle pi pCount p hpc hp hpid =>
    rw [hpc] at hs
    have hleft := ending_step hp hs.1 hpar.pid (hkill p (by simp [signals, hpc, hp])) hs.2
    rw [if_neg hpid] at hleft
    exact ⟨hs.1, hleft⟩
  | wait hpc =>
    rw [hpc] at hs
    exact hs
  | sigkill hpc =>
    rw [hpc] at hs
    exact ⟨hs.1, by simp⟩
  | waited hpc =>
    rw [hpc] at hs
    exact hs
  | @dead pi pCount p hpc hp hpid =>
    rw [hpc] at hs
    refine ⟨hs.1, fun c hc hci hq => ?_⟩
    rcases mem_take_succ hp hq with hq | heq
    · exact hs.2 c hc hci hq
    · have hpos := hpar.pid c hc hci
      rw [← heq, (hs.1 c hc hci).1] at hpid
      exact absurd hpos hpid
  | killed hpc hp =>
    rw [hpc] at hs
    have hkilled := hs.2
    rw [take_of_getElem?_none hp] at hkilled
    exact fun c hc hci => hkilled c hc hci (hpar.owner c hc hci)
  | returned => trivial

/-- The first phase counts the programs it has signalled. -/
theorem Shutdown.stop {e : Env} {pi : ℕ} {pCount : ℤ} {p : ProgPtr} (hs : t.Shutdown i os)
    (hpar : t.Parent i os) (hkill : KillSucceeds e t os) (hpc : t.pc = .ending pi pCount)
    (hp : t.s.programs[pi]? = some p) (hpid : (t.s.prog p).pid > 0) :
    let r := World.sendSignal ⟨t.s, os⟩ e p (t.s.prog p).stopSig .ending
    Shutdown i { t with s := r.2.s, pc := .ending (pi + 1) (if r.1 = 0 then pCount + 1 else pCount) }
      r.2.os := by
  simp only [Shutdown, hpc] at hs
  have hleft := ending_step hp hs.1 hpar.pid (hkill p (by simp [signals, hpc, hp])) hs.2
  have hsh := os.kill_shrinks (i := i) t.s.self p (t.s.prog p).pid (t.s.prog p).stopSig .ending
    e.killOk
  dsimp only
  rw [if_pos hpid] at hleft
  rw [sendSignal_of_pos hpid]
  refine ⟨hs.1.shrinks hsh, le_trans (Int.ofNat_le.2 (hsh.left_le _)) ?_⟩
  cases hok : e.killOk <;> simpa [hok] using hleft

/-- The second phase sends `SIGKILL` to every child, since it finds them all in their programs. -/
theorem Shutdown.kill {e : Env} {pi : ℕ} {pCount : ℤ} {p : ProgPtr} (hs : t.Shutdown i os)
    (hpc : t.pc = .killing pi pCount) (hp : t.s.programs[pi]? = some p)
    (hpid : (t.s.prog p).pid > 0) : let r := World.sendSignal ⟨t.s, os⟩ e p 9 .sigkill
    Shutdown i { t with s := r.2.s, pc := .killing (pi + 1) (pCount + 1) } r.2.os := by
  simp only [Shutdown, hpc] at hs
  have hsh := os.kill_shrinks (i := i) t.s.self p (t.s.prog p).pid 9 .sigkill e.killOk
  dsimp only
  rw [sendSignal_of_pos hpid]
  refine ⟨hs.1.shrinks hsh, fun c' hc' hci' hq' => ?_⟩
  obtain ⟨c, hc, rfl⟩ := List.mem_map.1 hc'
  have hci : c.thread = i := by
    split_ifs at hci' <;> exact hci'
  have hq : c.owner ∈ t.s.programs.take (pi + 1) := by
    split_ifs at hq' <;> exact hq'
  rcases mem_take_succ hp hq with hq | rfl
  · refine killed_of_shrinks (hs.2 c hc hci hq) ?_
    split_ifs
    · exact List.subset_append_left _ _
    · exact List.Subset.refl _
  · rw [if_pos (hs.1 c hc hci).1.symm]
    exact ⟨_, List.mem_append_right _ List.mem_cons_self, rfl⟩

/-- A child that is taken in the first waiting phase is one of a program that was counted, and the
last phase only takes children away. -/
theorem Shutdown.bury {child zero echild : Pc} {c : Child} {p : ProgPtr} (hs : t.Shutdown i os)
    (hpar : t.Parent i os) (hord : t.Orderly i env os) (hwait : t.Waits child zero echild)
    (hreap : t.reaps (env 0) os = some c) (hp : t.s.running c.pid = some p) :
    let w := World.bury ⟨t.s, os.reap t.s.self c (some p) (t.s.prog p).pid⟩ c p t.now
    Shutdown i { t with s := w.s, pc := child } w.os := by
  cases hwait with
  | waitFor hpc =>
    simp only [Shutdown, hpc] at hs
    have hmem := mem_children_of_reaps hreap
    have hci := hord.own _ _ _ _ c hpc hreap (by simp [hp])
    have hpmem : p ∈ t.s.programs := by
      have hrun := (hs.1 c hmem hci).2
      rw [hp] at hrun
      exact Option.some.inj hrun ▸ hpar.owner c hmem hci
    obtain ⟨hk, hlt⟩ := bury_left (w := World.bury
      ⟨t.s, os.reap i c (some p) (t.s.prog p).pid⟩ c p t.now) hs.1 hmem hci hp hpmem rfl
    rw [hpar.self]
    refine ⟨hk, ?_⟩
    dsimp only
    omega
  | reaping hpc =>
    simp only [Shutdown, hpc] at hs
    intro w d hd hdi
    exact hs d (List.mem_filter.1 hd).1 hdi

/-- Where no child is taken, fewer are waited for at most. -/
theorem Shutdown.nobody {child zero echild pc : Pc} (hs : t.Shutdown i os)
    (hwait : t.Waits child zero echild) (hpc' : pc = zero ∨ pc = echild) :
    Shutdown i { t with pc } os := by
  cases hwait with
  | waitFor hpc =>
    simp only [Shutdown, hpc] at hs
    rcases hpc' with rfl | rfl
    · exact hs
    · exact hs
  | reaping hpc =>
    simp only [Shutdown, hpc] at hs
    rcases hpc' with rfl | rfl
    · exact hs
    · exact hs

theorem shutdown_step (hpar : t.Parent i os) (hkill : KillSucceeds (env 0) t os)
    (hord : t.Orderly i env os) (hs : t.Shutdown i os) (h : t.step env os = .ok (t', os')) :
    t'.Shutdown i os' := by
  obtain ⟨pc, w, hm, rfl, rfl⟩ := step_moves h
  cases hm with
  | jump hj => exact hs.jump hpar hkill hj
  | leave hpc hoff => exact ⟨hord.knows hpc hoff, by simp [OS.left]⟩
  | stop hpc hp hpid => exact hs.stop hpar hkill hpc hp hpid
  | stopped hpc hp =>
    simp only [Shutdown, hpc, take_of_getElem?_none hp] at hs
    exact hs
  | kill hpc hp hpid => exact hs.kill hpc hp hpid
  | bury hwait hreap hp => exact hs.bury hpar hord hwait hreap hp
  | nobody hwait hreap hpc => exact hs.nobody hwait hpc
  | enter => trivial
  | unit => trivial
  | erase => trivial
  | limit => trivial
  | death => trivial
  | alive => trivial
  | stray => trivial
  | finish => trivial

end Thread

/-! ## Runs -/

namespace Process

variable {σ₀ σ σ' : Process} {l : Label}

/-- `kill` succeeds on every unreaped child. -/
def KillSucceeds (σ : Process) (l : Label) (_ : Process) : Prop :=
  ∀ i env, l = .thread i env → Thread.KillSucceeds (env 0) (σ.thread i) σ.os

/-- The shutdown of a scheduler begins with every child in the pid field of its program. -/
def ShutsDownOrderly (σ : Process) (l : Label) (_ : Process) : Prop :=
  ∀ i env, l = .thread i env → i < σ.count → (σ.thread i).Orderly i env σ.os

/-- A scheduler that sets `STATUS_READY` has no unreaped child that was not sent `SIGKILL`. -/
def NothingLeft (σ : Process) (_ : Label) (σ' : Process) : Prop :=
  ∀ i, (σ.thread i).s.status ≠ .ready → (σ'.thread i).s.status = .ready →
    ∀ c ∈ σ'.os.children, c.thread = i → c.killed

theorem Owned.parent (hσ : σ.Owned) {i : ℕ} (hi : i < σ.count) :
    (σ.thread i).Parent i σ.os where
  self := hσ.self i hi
  owner _ hc hci := hci ▸ hσ.owner _ (OS.mem_kids hc)
  pid _ hc _ := hσ.pid _ (OS.mem_kids hc)

/-- A step of the process that is none of thread `i` gives scheduler `i` no children. -/
theorem shrinks_of_step (hσ : σ.Regular) (h : machine.step l σ = .ok σ') {i : ℕ}
    (hl : ∀ env, l = .thread i env → σ.count ≤ i) : σ.os.Shrinks i σ'.os := by
  obtain ⟨-, es, hes, hexec⟩ := step_entries hσ.self h
  have hforks : ∀ e ∈ es, e.Forks fun k => k.1 ≠ i := by
    cases hes with
    | @thread j env es hj hs =>
      have hij : j ≠ i := by
        rintro rfl
        exact absurd (hl env rfl) (by omega)
      cases hs <;> simp [Entry.Forks, hij]
    | _ => simp [Entry.Forks]
  have hstep : ∀ (e : Entry) (b b' : Books), e.Forks (fun k => k.1 ≠ i) →
      σ.os.Shrinks i b.os → supervisor.step e b = .ok b' → σ.os.Shrinks i b'.os :=
    fun e b b' he hb hstep => hb.trans (step_shrinks hstep he)
  exact Transition.System.exec_invariant_of_forall hstep hforks (OS.Shrinks.refl σ.os) hexec

theorem Owned.shutdown_step (hσ : σ.Owned) (hs : ∀ i < σ.count, (σ.thread i).Shutdown i σ.os)
    (h : machine.step l σ = .ok σ') (hkill : σ.KillSucceeds l σ')
    (hord : σ.ShutsDownOrderly l σ') : ∀ i < σ'.count, (σ'.thread i).Shutdown i σ'.os := by
  intro i hi
  rw [(hσ.frame_of_step h).count] at hi
  rcases thread_of_step h i with ⟨env, t, os, rfl, -, hstep, rfl, rfl⟩ | ⟨hl, s, hs', he⟩
  · exact Thread.shutdown_step (hσ.parent hi) (hkill i env rfl) (hord i env rfl hi) (hs i hi) hstep
  · have hshrunk := (hs i hi).shrinks (shrinks_of_step hσ.toRegular h hl)
    rw [he]
    cases hs' <;> exact hshrunk

theorem Owned.nothingLeft (hσ : σ.Owned) (hs : ∀ i < σ.count, (σ.thread i).Shutdown i σ.os)
    (h : machine.step l σ = .ok σ') : σ.NothingLeft l σ' := by
  intro i hno hready
  rcases thread_of_step h i with ⟨env, t, os, rfl, hi, hstep, rfl, rfl⟩ | ⟨-, s, hs', he⟩
  · rcases Thread.step_local (hσ.linked i) hstep with hl | ⟨status, hw, hfin⟩
    · exact absurd (hl.status.symm.trans hready) hno
    · have hstatus : (σ'.thread i).s.status = status := congrArg (fun w => w.s.status) hw
      have hos : σ'.os = σ.os := congrArg World.os hw
      rw [hos]
      exact (hs i hi).killed (hfin (hstatus.symm.trans hready)) (hσ.parent hi).owner
  · rw [he] at hready
    have hstatus : s.status = (σ.thread i).s.status := by cases hs' <;> rfl
    exact absurd (hstatus.symm.trans hready) hno

/-- A shutdown leaves nothing behind when it begins with every child in the pid field of its
program. -/
theorem shutdown_leaves_nothing (h₀ : σ₀.Initial) (hlinked : σ₀.Linked) {ls : List Label}
    (hkill : machine.Along KillSucceeds ls σ₀) (hord : machine.Along ShutsDownOrderly ls σ₀) :
    machine.Along NothingLeft ls σ₀ := by
  have hpc : ∀ i < σ₀.count, (σ₀.thread i).Shutdown i σ₀.os := by
    intro i _
    simp only [Thread.Shutdown, h₀.pc i]
  have hstep : ∀ l σ σ', (σ.Owned ∧ ∀ i < σ.count, (σ.thread i).Shutdown i σ.os) →
      machine.step l σ = .ok σ' → σ.KillSucceeds l σ' ∧ σ.ShutsDownOrderly l σ' →
      σ'.Owned ∧ ∀ i < σ'.count, (σ'.thread i).Shutdown i σ'.os :=
    fun l σ σ' hσ h hp => ⟨hσ.1.step h, hσ.1.shutdown_step hσ.2 h hp.1 hp.2⟩
  exact Transition.System.Along.imp_of_invariant (fun l σ σ' hσ h _ => hσ.1.nothingLeft hσ.2 h)
    hstep ⟨h₀.owned hlinked, hpc⟩ (hkill.and hord)

/-- A scheduler that no foreign child is given knows all children of programs without limit. -/
theorem Kept.shutsDownOrderly (hσ : σ.Kept) (hown : σ.OwnDeaths l σ')
    (hlim : ∀ i p, ((σ.thread i).s.prog p).limits.maxruntime = -1) : σ.ShutsDownOrderly l σ' := by
  intro i env hl hi
  constructor
  case knows =>
    rintro - - c hc rfl
    have hkid := OS.mem_kids hc
    have hlimited : σ.books.limited c.key = false := by
      simp [books, Peter.books, schedulers, Child.key, hlim]
    exact ⟨hσ.sound.sole _ hkid hlimited, hσ.sound.known _ hkid⟩
  case own =>
    intro tries pCount kCount pri c _ hreap _
    obtain ⟨pid, hpid, hc⟩ := reaps_mem hreap
    exact hown i env hl hi pid hpid c hc

/-- So it is with one scheduler and no `maxruntime` limits. -/
theorem shutsDownOrderly_of_unlimited (h₀ : σ₀.Initial) (h1 : σ₀.count = 1)
    (hlim : ∀ i p, ((σ₀.thread i).s.prog p).limits.maxruntime = -1) (ls : List Label) :
    machine.Along ShutsDownOrderly ls σ₀ := by
  have hstep : ∀ l τ τ', (τ.Kept ∧ τ.count = 1 ∧
      ∀ i p, ((τ.thread i).s.prog p).limits.maxruntime = -1) → machine.step l τ = .ok τ' →
      τ'.Kept ∧ τ'.count = 1 ∧ ∀ i p, ((τ'.thread i).s.prog p).limits.maxruntime = -1 := by
    rintro l τ τ' ⟨hτ, hc, hl⟩ h
    obtain ⟨hτ', hc'⟩ := hτ.step_lone hc h
    refine ⟨hτ', hc', fun i p => ?_⟩
    rw [(((hτ.frame_of_step h).scheduler i).prog p).limits]
    exact hl i p
  refine Transition.System.along_of_invariant (fun l τ τ' hτ _ => ?_) hstep ⟨h₀.kept, h1, hlim⟩
  exact hτ.1.shutsDownOrderly (hτ.1.ownDeaths hτ.2.1 l τ') hτ.2.2

/-- When the system never fails a `kill`, none of the schedulers sees one fail. -/
theorem killSucceeds_of_killOk {ls : List Label}
    (h : ∀ i env, .thread i env ∈ ls → (env 0).killOk) (σ : Process) :
    machine.Along KillSucceeds ls σ := by
  refine Transition.System.along_of_forall (fun l hl σ σ' i env he => ?_) σ
  subst he
  exact fun _ _ _ => h i env hl

/-- The program is started, `<quit />` arrives, and its process dies of the stop signal. -/
def quitSleeper : List Label :=
  List.replicate 2 (.thread 0 fun _ => {}) ++ [.quit 0 0] ++
    List.replicate 11 (.thread 0 fun _ => {}) ++ [.dies 1 15] ++
    List.replicate 3 (.thread 0 fun _ => {})

theorem sleeper_unlimited (i : ℕ) (p : ProgPtr) :
    (((Process.configured [.sleeper]).thread i).s.prog p).limits.maxruntime = -1 := by
  cases i with
  | zero => cases p <;> rfl
  | succ i => rfl

theorem shutdown_leaves_nothing_sleeper :
    (∃ σ, machine.exec quitSleeper (.configured [.sleeper]) = .ok σ ∧
      (σ.thread 0).s.status = .ready) ∧
    machine.Along NothingLeft quitSleeper (.configured [.sleeper]) := by
  refine ⟨⟨_, rfl, rfl⟩, shutdown_leaves_nothing sleeper_initial ?_ ?_ ?_⟩
  · exact configured_linked (List.forall_mem_singleton.2 (by simp [SchedulerConfig.Linked,
      SchedulerConfig.sleeper]))
  · refine killSucceeds_of_killOk ?_ _
    intro i env h
    simp only [quitSleeper, List.mem_append, List.mem_replicate, List.mem_singleton] at h
    rcases h with (((⟨-, h⟩ | h) | ⟨-, h⟩) | h) | ⟨-, h⟩ <;> cases h <;> rfl
  · exact shutsDownOrderly_of_unlimited sleeper_initial rfl sleeper_unlimited _

/-- A program that runs for longer than its limit and does not die of its stop signal. -/
def stubborn : SchedulerConfig where
  programs := [{ name := str "stubborn", seq := [str "/bin/stubborn"]
                 limits := { maxruntime := 5 } }]
  init := [(.runProg, 0, 0)]

/-- It is started, `<quit />` arrives, and its time is over in the last pass. -/
def outlived : List Label :=
  List.replicate 3 (.thread 0 fun _ => { utc := 1 }) ++ [.quit 0 10] ++
    List.replicate 16 (.thread 0 fun _ => { utc := 10 })

theorem shutdown_leaves_nothing_fails : ¬∀ (σ₀ : Process) (ls : List Label), σ₀.Initial →
    σ₀.Linked → machine.Along KillSucceeds ls σ₀ → machine.Along NothingLeft ls σ₀ := by
  intro h
  have hinit : (Process.configured [stubborn]).Initial :=
    configured_initial (List.forall_mem_singleton.2 ⟨by simp [stubborn], by simp [stubborn]⟩)
  have hlinked : (Process.configured [stubborn]).Linked :=
    configured_linked (List.forall_mem_singleton.2 (by simp [SchedulerConfig.Linked, stubborn]))
  have hkill : machine.Along KillSucceeds (outlived ++ [.thread 0 fun _ => { utc := 10 }])
      (.configured [stubborn]) := by
    refine killSucceeds_of_killOk ?_ _
    intro i env h
    simp only [outlived, List.mem_append, List.mem_replicate, List.mem_singleton] at h
    rcases h with ((⟨-, h⟩ | h) | ⟨-, h⟩) | h <;> cases h <;> rfl
  obtain ⟨σ, σ', hσ, hstep, hno, hready, c, hc, hi, hsig⟩ : ∃ σ σ',
      machine.exec outlived (.configured [stubborn]) = .ok σ ∧
      machine.step (.thread 0 fun _ => { utc := 10 }) σ = .ok σ' ∧
      (σ.thread 0).s.status ≠ .ready ∧ (σ'.thread 0).s.status = .ready ∧
      ∃ c ∈ σ'.os.children, c.thread = 0 ∧ c.signals.map Signal.sig = [15] :=
    ⟨_, _, rfl, rfl, by decide, rfl, _, List.mem_cons_self, rfl, rfl⟩
  obtain ⟨s, hs, h9⟩ := (h _ _ hinit hlinked hkill).at_step hσ hstep 0 hno hready c hc hi
  have h15 := List.mem_map_of_mem (f := Signal.sig) hs
  rw [hsig, h9] at h15
  simp at h15

end Process

end Peter
