import Peter.Ledger

/-!
# Books that describe the children

`Sound` is the invariant of the books: a pid field that is not 0 is the pid of an unreaped child of
that program, the `running` map of a scheduler has its unreaped children under their programs and
nothing else but an entry for pid 0, and a program without a `maxruntime` limit holds the pid of
every child it has.  Every entry keeps it, as long as no scheduler reaps the child of another
(`Entry.Own`).
-/

namespace Peter

/-! ## Children as pid and program -/

namespace OS

/-- The unreaped children, each with its program. -/
def kids (os : OS) : List (ℤ × Key) := os.children.map fun c => (c.pid, c.key)

theorem kids_pids (os : OS) : os.kids.map Prod.fst = os.pids := by
  simp only [kids, pids, List.map_map]
  rfl

theorem mem_kids {os : OS} {c : Child} (hc : c ∈ os.children) : (c.pid, c.key) ∈ os.kids :=
  List.mem_map_of_mem hc

theorem exists_of_mem_kids {os : OS} {pid : ℤ} {k : Key} (h : (pid, k) ∈ os.kids) :
    ∃ c ∈ os.children, c.pid = pid ∧ c.key = k := by
  obtain ⟨c, hc, he⟩ := List.mem_map.1 h
  exact ⟨c, hc, congrArg Prod.fst he, congrArg Prod.snd he⟩

theorem fork_kids (os : OS) (i : ℕ) (p : ProgPtr) (hint : ℤ) :
    (os.fork i p hint).2.kids = os.kids ++ [(os.freshPid hint, (i, p))] := by
  simp [fork, kids, Child.key]

theorem kill_kids (os : OS) (i : ℕ) (p : ProgPtr) (pid sig : ℤ) (cause : Cause) (ok : Bool) :
    (os.kill i p pid sig cause ok).kids = os.kids := by
  simp only [kill, kids, List.map_map]
  apply List.map_congr_left
  intro c _
  simp only [Function.comp_apply]
  split_ifs <;> rfl

theorem dies_kids (os : OS) (pid : ℤ) (status : ℕ) : (os.dies pid status).kids = os.kids := by
  simp only [dies, kids, List.map_map]
  apply List.map_congr_left
  intro c _
  simp only [Function.comp_apply]
  split_ifs <;> rfl

theorem leaves_kids (os : OS) (pid : ℤ) : (os.leaves pid).kids = os.kids := by
  simp only [leaves, kids, List.map_map]
  apply List.map_congr_left
  intro c _
  simp only [Function.comp_apply]
  split_ifs <;> rfl

theorem reap_kids (os : OS) (i : ℕ) (c : Child) (p : Option ProgPtr) (slot : ℤ) :
    (os.reap i c p slot).kids = os.kids.filter fun d => d.1 ≠ c.pid := by
  simp only [reap, kids, List.filter_map]
  rfl

theorem mem_reap_kids {os : OS} {i : ℕ} {c : Child} {p : Option ProgPtr} {slot : ℤ}
    {d : ℤ × Key} : d ∈ (os.reap i c p slot).kids ↔ d ∈ os.kids ∧ d.1 ≠ c.pid := by
  rw [reap_kids, List.mem_filter, decide_eq_true_eq]

end OS

/-- What holds of every child, and of a new one, holds after an entry. -/
theorem forall_mem_kids {Q : ℤ × Key → Prop} {e : Entry} {b b' : Books}
    (hb : ∀ d ∈ b.os.kids, Q d) (h : supervisor.step e b = .ok b')
    (hfork : ∀ k hint t, e = .fork k hint t → Q (b.os.freshPid hint, k)) :
    ∀ d ∈ b'.os.kids, Q d := by
  intro d hd
  cases e with
  | fork k hint t =>
    obtain ⟨-, rfl⟩ := step_fork.1 h
    rw [show (b.fork k hint t).os.kids = b.os.kids ++ [(b.os.freshPid hint, k)] from
      OS.fork_kids b.os k.1 k.2 hint, List.mem_append, List.mem_singleton] at hd
    rcases hd with hd | rfl
    · exact hb d hd
    · exact hfork k hint t rfl
  | enter k => cases h; exact hb d hd
  | signal k sig cause ok =>
    obtain ⟨-, rfl⟩ := step_signal.1 h
    exact hb d (OS.kill_kids b.os k.1 k.2 _ sig cause ok ▸ hd)
  | expire k sig ok =>
    obtain ⟨-, rfl⟩ := step_expire.1 h
    exact hb d (OS.kill_kids b.os k.1 k.2 _ sig .limit ok ▸ hd)
  | bury i c p ev =>
    obtain ⟨-, rfl⟩ := step_bury.1 h
    exact hb d (OS.mem_reap_kids.1 hd).1
  | lose i c =>
    obtain ⟨-, rfl⟩ := step_lose.1 h
    exact hb d (OS.mem_reap_kids.1 hd).1
  | dies pid status => cases h; exact hb d (OS.dies_kids b.os pid status ▸ hd)
  | leaves pid => cases h; exact hb d (OS.leaves_kids b.os pid ▸ hd)

/-! ## The invariant -/

structure Sound (b : Books) : Prop where
  nodup : (b.os.kids.map Prod.fst).Nodup
  pos : ∀ d ∈ b.os.kids, 0 < d.1
  held : ∀ k, b.slot k ≠ 0 → (b.slot k, k) ∈ b.os.kids
  known : ∀ d ∈ b.os.kids, b.running d.2.1 d.1 = some d.2.2
  only : ∀ i pid p, b.running i pid = some p → pid = 0 ∨ (pid, (i, p)) ∈ b.os.kids
  sole : ∀ d ∈ b.os.kids, b.limited d.2 = false → b.slot d.2 = d.1

/-- The scheduler that reaps a child is the one that forked it. -/
def Entry.Own : Entry → Prop
  | .bury i c _ _ => c.thread = i
  | .lose i c => c.thread = i
  | _ => True

namespace Sound

variable {b : Books}

theorem pids_nodup (hb : Sound b) : b.os.pids.Nodup := b.os.kids_pids ▸ hb.nodup

/-- One pid belongs to one child. -/
theorem child_eq (hb : Sound b) {c d : Child} (hc : c ∈ b.os.children) (hd : d ∈ b.os.children)
    (h : c.pid = d.pid) : c = d := List.inj_on_of_nodup_map hb.pids_nodup hc hd h

/-- One pid belongs to one program. -/
theorem key_eq (hb : Sound b) {pid : ℤ} {k k' : Key} (h : (pid, k) ∈ b.os.kids)
    (h' : (pid, k') ∈ b.os.kids) : k = k' :=
  congrArg Prod.snd (List.inj_on_of_nodup_map hb.nodup h h' rfl)

/-- Two programs never hold the same pid. -/
theorem slot_inj (hb : Sound b) {k k' : Key} (hk : b.slot k ≠ 0) (he : b.slot k = b.slot k') :
    k = k' :=
  hb.key_eq (hb.held k hk) (he ▸ hb.held k' (he ▸ hk))

theorem slot_known (hb : Sound b) {k : Key} (hk : b.slot k ≠ 0) :
    b.running k.1 (b.slot k) = some k.2 := hb.known _ (hb.held k hk)

/-- The pid of a program names the child of that program. -/
theorem childOf_slot (hb : Sound b) {k : Key} (hk : b.slot k ≠ 0) :
    (b.os.childOf (b.slot k)).map Child.key = some k := by
  obtain ⟨c, hc, hpid, hkey⟩ := OS.exists_of_mem_kids (hb.held k hk)
  rw [← hpid, OS.childOf_of_mem hb.pids_nodup hc, Option.map_some, hkey]

/-- A scheduler finds its own children in its map. -/
theorem found (hb : Sound b) {i : ℕ} {c : Child} (hc : c ∈ b.os.children) (hi : c.thread = i) :
    b.running i c.pid = some c.owner := hi ▸ hb.known _ (OS.mem_kids hc)

/-- What it finds is the program of the child. -/
theorem key_of_found (hb : Sound b) {i : ℕ} {c : Child} {p : ProgPtr} (hc : c ∈ b.os.children)
    (hi : c.thread = i) (hp : b.running i c.pid = some p) : c.key = (i, p) :=
  Prod.ext hi (Option.some.inj ((hb.found hc hi).symm.trans hp))

/-- It does not lose them. -/
theorem not_lose (hb : Sound b) {i : ℕ} {c : Child} (hi : c.thread = i) {b' : Books} :
    supervisor.step (.lose i c) b ≠ .ok b' := by
  intro h
  obtain ⟨hc, hnone⟩ := (step_lose.1 h).1
  exact absurd (hnone.symm.trans (hb.found hc hi)) (by simp)

/-- A scheduler does not find the children of the others. -/
theorem not_found (hb : Sound b) {i : ℕ} {c : Child} (hc : c ∈ b.os.children)
    (hi : c.thread ≠ i) : b.running i c.pid = none := by
  cases hp : b.running i c.pid with
  | none => rfl
  | some p =>
    have hkid := OS.mem_kids hc
    rcases hb.only i c.pid p hp with h0 | h
    · have := hb.pos _ hkid
      omega
    · exact absurd (congrArg Prod.fst (hb.key_eq hkid h)) hi

/-- A program without limit and without pid has no child. -/
theorem no_kid (hb : Sound b) {k : Key} (hlim : b.limited k = false) (hk : b.slot k = 0)
    {d : ℤ × Key} (hd : d ∈ b.os.kids) : d.2 ≠ k := by
  rintro rfl
  have := hb.sole d hd hlim
  have := hb.pos d hd
  omega

/-! ## Entries keep it -/

theorem fork (hb : Sound b) {k : Key} (hk : b.slot k = 0) (hint t : ℤ) :
    Sound (b.fork k hint t) := by
  have hkids : (b.fork k hint t).os.kids = b.os.kids ++ [(b.os.freshPid hint, k)] :=
    OS.fork_kids b.os k.1 k.2 hint
  have hfresh : ∀ d ∈ b.os.kids, d.1 ≠ b.os.freshPid hint := by
    intro d hd he
    exact b.os.freshPid_not_mem hint (he ▸ b.os.kids_pids ▸ List.mem_map_of_mem hd)
  constructor
  case nodup =>
    rw [hkids, List.map_append, List.nodup_append]
    refine ⟨hb.nodup, by simp, ?_⟩
    rintro x hx y hy rfl
    obtain ⟨d, hd, rfl⟩ := List.mem_map.1 hx
    exact hfresh d hd (by simpa using hy)
  case pos =>
    intro d hd
    rw [hkids, List.mem_append, List.mem_singleton] at hd
    rcases hd with hd | rfl
    · exact hb.pos d hd
    · exact b.os.freshPid_pos hint
  case held =>
    intro k' hk'
    rw [hkids, List.mem_append, List.mem_singleton]
    by_cases he : k' = k
    · subst he
      exact .inr (by simp [Books.fork])
    · simp only [Books.fork, Function.update_of_ne he] at hk' ⊢
      exact .inl (hb.held k' hk')
  case known =>
    intro d hd
    rw [hkids, List.mem_append, List.mem_singleton] at hd
    rcases hd with hd | rfl
    · have hne := hfresh d hd
      simp only [Books.fork]
      by_cases hi : d.2.1 = k.1
      · rw [hi, Function.update_self, Function.update_of_ne hne, ← hi]
        exact hb.known d hd
      · rw [Function.update_of_ne hi]
        exact hb.known d hd
    · simp [Books.fork]
  case only =>
    intro i pid p hp
    rw [hkids, List.mem_append, List.mem_singleton]
    simp only [Books.fork] at hp
    by_cases hi : i = k.1
    · subst hi
      rw [Function.update_self] at hp
      by_cases hpid : pid = b.os.freshPid hint
      · subst hpid
        rw [Function.update_self, Option.some.injEq] at hp
        exact .inr (.inr (by rw [← hp]))
      · rw [Function.update_of_ne hpid] at hp
        exact (hb.only _ _ _ hp).imp_right .inl
    · rw [Function.update_of_ne hi] at hp
      exact (hb.only _ _ _ hp).imp_right .inl
  case sole =>
    intro d hd hlim
    rw [hkids, List.mem_append, List.mem_singleton] at hd
    rcases hd with hd | rfl
    · replace hlim : b.limited d.2 = false := hlim
      by_cases he : d.2 = k
      · exact absurd he (hb.no_kid (he ▸ hlim) hk hd)
      · simp only [Books.fork, Function.update_of_ne he]
        exact hb.sole d hd hlim
    · simp [Books.fork]

theorem enter (hb : Sound b) (k : Key) : Sound (b.enter k) := by
  refine ⟨hb.nodup, hb.pos, hb.held, fun d hd => ?_, fun i pid p hp => ?_, hb.sole⟩
  · simp only [Books.enter]
    by_cases hi : d.2.1 = k.1
    · rw [hi, Function.update_self]
      by_cases hpid : d.1 = b.slot k
      · -- the entry under a pid in use is the program that holds it
        have hpos := hb.pos d hd
        have hkey : d.2 = k := hb.key_eq (show (d.1, d.2) ∈ b.os.kids from hd)
          (hpid ▸ hb.held k (by omega))
        rw [hpid, Function.update_self, hkey]
      · rw [Function.update_of_ne hpid, ← hi]
        exact hb.known d hd
    · rw [Function.update_of_ne hi]
      exact hb.known d hd
  · simp only [Books.enter] at hp
    by_cases hi : i = k.1
    · subst hi
      rw [Function.update_self] at hp
      by_cases hpid : pid = b.slot k
      · subst hpid
        rw [Function.update_self, Option.some.injEq] at hp
        by_cases hk : b.slot k = 0
        · exact .inl hk
        · exact .inr (hp ▸ hb.held k hk)
      · rw [Function.update_of_ne hpid] at hp
        exact hb.only _ _ _ hp
    · rw [Function.update_of_ne hi] at hp
      exact hb.only _ _ _ hp

/-- The invariant reads of the system only the pids and programs of the children. -/
theorem of_kids (hb : Sound b) {os : OS} (h : os.kids = b.os.kids) : Sound { b with os } := by
  constructor
  · exact h ▸ hb.nodup
  · exact h ▸ hb.pos
  · exact h ▸ hb.held
  · exact h ▸ hb.known
  · exact h ▸ hb.only
  · exact h ▸ hb.sole

theorem expire (hb : Sound b) {k : Key} (hlim : b.limited k) (sig : ℤ) (ok : Bool) :
    Sound (b.expire k sig ok) := by
  have hs : Sound (b.signal k sig .limit ok) := hb.of_kids (OS.kill_kids ..)
  refine ⟨hs.nodup, hs.pos, fun k' hk' => ?_, hs.known, hs.only, fun d hd hd' => ?_⟩
  · by_cases he : k' = k
    · simp [Books.expire, he] at hk'
    · simp only [Books.expire, Function.update_of_ne he] at hk' ⊢
      exact hs.held k' hk'
  · have hne : d.2 ≠ k := by
      rintro rfl
      exact absurd (hlim.symm.trans hd') (by simp)
    simp only [Books.expire, Function.update_of_ne hne]
    exact hs.sole d hd hd'

theorem bury (hb : Sound b) {i : ℕ} {c : Child} {p : ProgPtr} (ev : Option Event)
    (hc : c ∈ b.os.children) (hp : b.running i c.pid = some p) (hi : c.thread = i) :
    Sound (b.bury i c p ev) := by
  have hkey := hb.key_of_found hc hi hp
  have hckid := hkey ▸ OS.mem_kids hc
  have hmem : ∀ {d}, d ∈ (b.bury i c p ev).os.kids ↔ d ∈ b.os.kids ∧ d.1 ≠ c.pid :=
    OS.mem_reap_kids
  constructor
  case nodup =>
    have hsub : ((b.os.reap i c (some p) (b.slot (i, p))).kids.map Prod.fst).Sublist
        (b.os.kids.map Prod.fst) := by
      rw [OS.reap_kids]
      exact List.filter_sublist.map _
    exact hsub.nodup hb.nodup
  case pos => exact fun d hd => hb.pos d (hmem.1 hd).1
  case held =>
    intro k hk
    by_cases he : k = (i, p)
    · simp [Books.bury, he] at hk
    · simp only [Books.bury, Function.update_of_ne he] at hk
      have hslot : (b.bury i c p ev).slot k = b.slot k := by
        simp [Books.bury, Function.update_of_ne he]
      have hkid := hb.held k hk
      rw [hslot]
      refine hmem.2 ⟨hkid, fun hpid => he ?_⟩
      simp only at hpid
      exact hb.key_eq (hpid ▸ hkid) hckid
  case known =>
    intro d hd
    obtain ⟨hd, hne⟩ := hmem.1 hd
    simp only [Books.bury]
    by_cases hdi : d.2.1 = i
    · rw [hdi, Function.update_self, Function.update_of_ne hne, ← hdi]
      exact hb.known d hd
    · rw [Function.update_of_ne hdi]
      exact hb.known d hd
  case only =>
    intro j pid q hq
    simp only [Books.bury] at hq
    by_cases hj : j = i
    · subst hj
      rw [Function.update_self] at hq
      by_cases hpid : pid = c.pid
      · simp [hpid] at hq
      · rw [Function.update_of_ne hpid] at hq
        exact (hb.only _ _ _ hq).imp_right fun h => hmem.2 ⟨h, hpid⟩
    · rw [Function.update_of_ne hj] at hq
      refine (hb.only _ _ _ hq).imp_right fun h => hmem.2 ⟨h, fun hpid => hj ?_⟩
      exact congrArg Prod.fst (hb.key_eq h ((hpid : pid = c.pid) ▸ hckid))
  case sole =>
    intro d hd hlim
    obtain ⟨hd, hne⟩ := hmem.1 hd
    have hdk : d.2 ≠ (i, p) := by
      intro he
      -- then `c`, of the same program, would be in its slot too
      have h1 := hb.sole d hd hlim
      have h2 := hb.sole _ hckid (he ▸ hlim)
      rw [he] at h1
      exact hne (h1.symm.trans h2)
    simp only [Books.bury, Function.update_of_ne hdk]
    exact hb.sole d hd hlim

/-- An entry that reaps only own children keeps the books sound. -/
theorem step (hb : Sound b) {e : Entry} {b' : Books} (h : supervisor.step e b = .ok b')
    (hown : e.Own) : Sound b' := by
  cases e with
  | fork k hint t =>
    obtain ⟨hk, rfl⟩ := step_fork.1 h
    exact hb.fork hk hint t
  | enter k => cases h; exact hb.enter k
  | signal k sig cause ok =>
    obtain ⟨-, rfl⟩ := step_signal.1 h
    exact hb.of_kids (OS.kill_kids ..)
  | expire k sig ok =>
    obtain ⟨hk, rfl⟩ := step_expire.1 h
    exact hb.expire hk.2 sig ok
  | bury i c p ev =>
    obtain ⟨hk, rfl⟩ := step_bury.1 h
    exact hb.bury ev hk.1 hk.2.1 hown
  | lose i c => exact absurd h (hb.not_lose hown)
  | dies pid status => cases h; exact hb.of_kids (OS.dies_kids ..)
  | leaves pid => cases h; exact hb.of_kids (OS.leaves_kids ..)

end Sound

end Peter
