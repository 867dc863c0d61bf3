import Mathlib.Data.List.Nodup
import Mathlib.Data.Int.Order.Basic
import Mathlib.Tactic.Tauto
import Peter.Util

/-!
# Processes and system calls

What the operating system keeps for PETeR: the children it has not returned from `waitpid` yet.
All scheduler threads of the process share this one set.  `fork`, `kill` and `waitpid` read and
change it; where the system is free (the pid of a new process, which of several dead children is
returned) the call takes the choice as an argument.

`trace` is history: each call that the results about the schedulers speak of, with what was true
when it was made.
-/

namespace Peter

/-- A `Program*`. -/
abbrev ProgPtr := ℕ

/-- The places of the source that send a signal. -/
inductive Cause
  | endProg
  | limit
  | ending
  | sigkill
  deriving DecidableEq, Repr

/-- A `kill` of a child: where it came from, the signal, and whether it reached a living process. -/
structure Signal where
  cause : Cause
  sig : ℤ
  delivered : Bool
  deriving DecidableEq, Repr

/-- A child process that `waitpid` has not returned.  `status` is its wait status once it is
dead, `inGroup` whether it is still in the process group of PETeR; `thread` and `owner` name the
scheduler and the program whose `run` forked it. -/
structure Child where
  pid : ℤ
  thread : ℕ
  owner : ProgPtr
  status : Option ℕ := none
  inGroup : Bool := true
  signals : List Signal := []
  deriving DecidableEq, Repr

/-- The child was signalled for running longer than its program's `maxruntime`. -/
def Child.expired (c : Child) : Bool := c.signals.any fun s => s.cause = .limit

/-- The child is dead of a stop signal that a `WT_END_PROG` unit sent. -/
def Child.diedOfStop (c : Child) : Bool := match c.status with
  | none => false
  | some status => wifsignaled status &&
      c.signals.any fun s => s.cause = .endProg && s.delivered && s.sig = wtermsig status

/-- A recorded call. -/
inductive Obs
  /-- `fork` by `run` of `owner`, with the children of that program unreaped at the time. -/
  | fork (thread : ℕ) (owner : ProgPtr) (pid : ℤ) (siblings : List Child)
  /-- `kill` by `send_signal` of `program`, with the owner of the unreaped child of that pid. -/
  | kill (thread : ℕ) (program : ProgPtr) (pid sig : ℤ) (target : Option (ℕ × ProgPtr))
  /-- `waitpid` returned `child` to a scheduler that found `program` under its pid, when the pid
  field of that program was `slot`. -/
  | waited (thread : ℕ) (child : Child) (program : Option ProgPtr) (slot : ℤ)
  deriving DecidableEq, Repr

structure OS where
  children : List Child
  trace : List Obs
  deriving DecidableEq, Repr

namespace OS

def pids (os : OS) : List ℤ := os.children.map Child.pid

def observe (os : OS) (o : Obs) : OS := { os with trace := os.trace ++ [o] }

/-- The pid of a new process: the system's choice where it may choose it. -/
def freshPid (os : OS) (hint : ℤ) : ℤ :=
  if 0 < hint ∧ hint ∉ os.pids then hint else os.pids.foldr max 0 + 1

/-- `fork` in the parent: the pid of the new child and the system with it. -/
def fork (os : OS) (thread : ℕ) (owner : ProgPtr) (hint : ℤ) : ℤ × OS :=
  let pid := os.freshPid hint
  let siblings := os.children.filter fun c => c.thread = thread ∧ c.owner = owner
  (pid, { os with
    children := os.children ++ [{ pid, thread, owner }]
    trace := os.trace ++ [.fork thread owner pid siblings] })

/-- The unreaped child with a pid. -/
def childOf (os : OS) (pid : ℤ) : Option Child := os.children.find? fun c => c.pid = pid

/-- `kill(pid, sig)`, called by `send_signal` of `program`; `ok` is whether it succeeds. -/
def kill (os : OS) (thread : ℕ) (program : ProgPtr) (pid sig : ℤ) (cause : Cause) (ok : Bool) :
    OS where
  children := os.children.map fun c =>
    if c.pid = pid then { c with signals := c.signals ++ [⟨cause, sig, ok && c.status.isNone⟩] }
    else c
  trace := os.trace ++
    [.kill thread program pid sig ((os.childOf pid).map fun c => (c.thread, c.owner))]

/-- The children a `waitpid(pid, …)` waits for: the one with that pid, or for 0 all those in the
process group. -/
def waitable (os : OS) (pid : ℤ) : List Child :=
  os.children.filter fun c => c.pid = pid ∨ pid = 0 ∧ c.inGroup

/-- Those of them that are dead. -/
def zombies (os : OS) (pid : ℤ) : List Child := (os.waitable pid).filter fun c => c.status.isSome

/-- What `waitpid` with `WNOHANG` returns. -/
inductive Waited
  | child (c : Child)
  | zero
  | echild
  deriving DecidableEq, Repr

/-- The child that `waitpid` returned. -/
def Waited.child? : Waited → Option Child
  | child c => some c
  | zero => none
  | echild => none

/-- `waitpid(pid, &status, WNOHANG)`: one of the dead children waited for, which it removes, or 0
while there is a living one, or -1 with `ECHILD`. -/
def waitpid (os : OS) (pid : ℤ) (pick : ℕ) : Waited × OS :=
  match (os.zombies pid)[pick % (os.zombies pid).length]? with
  | some c => (.child c, { os with children := os.children.filter fun d => d.pid ≠ c.pid })
  | none => (if (os.waitable pid).isEmpty then .echild else .zero, os)

/-- A living child dies. -/
def dies (os : OS) (pid : ℤ) (status : ℕ) : OS where
  children := os.children.map fun c =>
    if c.pid = pid ∧ c.status = none then { c with status := some status } else c
  trace := os.trace

/-- A child moves to a process group of its own. -/
def leaves (os : OS) (pid : ℤ) : OS where
  children := os.children.map fun c => if c.pid = pid then { c with inGroup := false } else c
  trace := os.trace

/-! ## Pids -/

theorem foldr_max_ge (l : List ℤ) (x : ℤ) (hx : x ∈ l) : x ≤ l.foldr max 0 := by
  induction l with
  | nil => simp at hx
  | cons a l ih =>
    rw [List.foldr_cons]
    rcases List.mem_cons.1 hx with rfl | hx
    · exact le_max_left _ _
    · exact le_trans (ih hx) (le_max_right _ _)

theorem foldr_max_nonneg (l : List ℤ) : 0 ≤ l.foldr max 0 := by
  induction l with
  | nil => simp
  | cons a l ih => exact le_trans ih (le_max_right _ _)

theorem freshPid_pos (os : OS) (hint : ℤ) : 0 < os.freshPid hint := by
  unfold freshPid
  split_ifs with h
  · exact h.1
  · have := foldr_max_nonneg os.pids
    omega

theorem freshPid_not_mem (os : OS) (hint : ℤ) : os.freshPid hint ∉ os.pids := by
  unfold freshPid
  split_ifs with h
  · exact h.2
  · intro hmem
    have := foldr_max_ge _ _ hmem
    omega

theorem childOf_of_mem {os : OS} (hnd : os.pids.Nodup) {c : Child} (hc : c ∈ os.children) :
    os.childOf c.pid = some c := by
  unfold childOf
  cases h : os.children.find? fun d => d.pid = c.pid with
  | none => exact absurd (List.find?_eq_none.1 h c hc) (by simp)
  | some d =>
    have hd := List.mem_of_find?_eq_some h
    have he : d.pid = c.pid := by simpa using List.find?_some h
    rw [List.inj_on_of_nodup_map hnd hd hc he]

/-- `waitpid` returns a dead child and removes it, or changes nothing. -/
theorem waitpid_cases (os : OS) (pid : ℤ) (pick : ℕ) :
    (∃ c, os.waitpid pid pick =
      (.child c, { os with children := os.children.filter fun d => d.pid ≠ c.pid })) ∨
    os.waitpid pid pick = (.zero, os) ∨ os.waitpid pid pick = (.echild, os) := by
  unfold waitpid
  cases h : (os.zombies pid)[pick % (os.zombies pid).length]? with
  | some c => exact .inl ⟨c, rfl⟩
  | none =>
    right
    split_ifs
    · exact .inr rfl
    · exact .inl rfl

/-- It returns a child it was asked for. -/
theorem mem_zombies_of_waitpid {os : OS} {pid : ℤ} {pick : ℕ} {c : Child}
    (h : (os.waitpid pid pick).1.child? = some c) : c ∈ os.zombies pid := by
  unfold waitpid at h
  cases hc : (os.zombies pid)[pick % (os.zombies pid).length]? with
  | some d =>
    simp only [hc, Waited.child?, Option.some.injEq] at h
    exact h ▸ List.mem_of_getElem? hc
  | none =>
    simp only [hc] at h
    split_ifs at h <;> simp [Waited.child?] at h

/-- The system may choose any of them. -/
theorem exists_pick {os : OS} {pid : ℤ} {c : Child} (hc : c ∈ os.zombies pid) :
    ∃ pick, (os.waitpid pid pick).1.child? = some c := by
  obtain ⟨n, hn, hget⟩ := List.getElem_of_mem hc
  refine ⟨n, ?_⟩
  unfold waitpid
  rw [Nat.mod_eq_of_lt hn, List.getElem?_eq_getElem hn, hget]
  rfl

theorem mem_zombies {os : OS} {pid : ℤ} {c : Child} :
    c ∈ os.zombies pid ↔ c ∈ os.children ∧ (c.pid = pid ∨ pid = 0 ∧ c.inGroup) ∧
      c.status.isSome := by
  simp only [zombies, waitable, List.mem_filter, decide_eq_true_eq]
  tauto

end OS

end Peter
