import Peter.Lib.History
import Peter.Socket

/-!
# What a connection does

`Causes σ x a` says, without the loops of the dispatcher, which acts a command element is for, and
`mem_message_acts` that a message from an allowed peer carries out exactly the acts its command
causes.  `Follows` connects a connection to the runs of the process: all it does to the schedulers
are the `quit`, `start` and `stop` steps of its acts.
-/

namespace Peter

open History

/-! ## Acts as steps of the process -/

/-- The steps of the process that a command is. -/
def Act.labels (now : ℤ) : Act → List Label
  | .quit i => [.quit i now]
  | .start i name => [.start i name now]
  | .stop i name => [.stop i name now]
  | .status => []
  | .info _ => []
  | .log _ => []

/-- The process of a session is `σ` after the commands the session carried out. -/
def Session.Follows (now : ℤ) (σ : Process) (c : Session) : Prop :=
  machine.exec (c.acts.flatMap fun d => d.1.labels now) σ = .ok c.process

/-- Two states of a process with the same schedulers and programs. -/
structure Process.Alike (σ σ' : Process) : Prop where
  count : σ'.count = σ.count
  name : ∀ i, (σ'.thread i).s.name = (σ.thread i).s.name
  programs : ∀ i, (σ'.thread i).s.programs = (σ.thread i).s.programs
  prog : ∀ i, (σ'.thread i).s.prog = (σ.thread i).s.prog

namespace Process

theorem Alike.refl (σ : Process) : σ.Alike σ := ⟨rfl, fun _ => rfl, fun _ => rfl, fun _ => rfl⟩

theorem Alike.getProgramByName {σ σ' : Process} (h : σ.Alike σ') (i : ℕ) (name : Str) :
    (σ'.thread i).s.getProgramByName name = (σ.thread i).s.getProgramByName name := by
  unfold Scheduler.getProgramByName
  rw [h.programs, h.prog]

theorem Alike.getScheduler {σ σ' : Process} (h : σ.Alike σ') (name : Str) :
    σ'.getScheduler name = σ.getScheduler name := by
  unfold Process.getScheduler
  simp only [h.count, h.name]

theorem Alike.addWorkunit {σ σ' : Process} (h : σ.Alike σ') (i : ℕ) (wType : WType) (tAt : ℤ)
    (p : Option ProgPtr) : σ.Alike (σ'.addWorkunit i wType tAt p) := by
  have hself : ∀ j, let s := ((σ'.addWorkunit i wType tAt p).thread j).s
      s.name = (σ'.thread j).s.name ∧ s.programs = (σ'.thread j).s.programs ∧
        s.prog = (σ'.thread j).s.prog := by
    intro j
    by_cases hj : j = i
    · subst hj
      simp [Process.addWorkunit, Process.put, World.addWorkunit]
    · simp [Process.addWorkunit, Process.put, Function.update_of_ne hj]
  exact ⟨h.count, fun j => (hself j).1.trans (h.name j),
    fun j => (hself j).2.1.trans (h.programs j), fun j => (hself j).2.2.trans (h.prog j)⟩

theorem Alike.addNamed {σ σ' : Process} (h : σ.Alike σ') (i : ℕ) (wType : WType) (name : Str)
    (now : ℤ) : σ.Alike (σ'.addNamed i wType name now) := by
  unfold Process.addNamed
  cases (σ'.thread i).s.getProgramByName name with
  | none => exact h
  | some p => exact h.addWorkunit i wType now (some p)

/-- A command changes no program and no list of programs. -/
theorem Alike.act {σ σ' σ'' : Process} (h : σ.Alike σ') {now : ℤ} {a : Act} {l : Label}
    (hl : l ∈ a.labels now) (hstep : machine.step l σ' = .ok σ'') : σ.Alike σ'' := by
  cases a with
  | quit i =>
    obtain rfl := List.mem_singleton.1 hl
    cases hstep
    exact h.addWorkunit i .exit now none
  | start i name =>
    obtain rfl := List.mem_singleton.1 hl
    cases hstep
    exact h.addNamed i .runProg name now
  | stop i name =>
    obtain rfl := List.mem_singleton.1 hl
    cases hstep
    exact h.addNamed i .endProg name now
  | status => exact absurd hl List.not_mem_nil
  | info i => exact absurd hl List.not_mem_nil
  | log i => exact absurd hl List.not_mem_nil

end Process

namespace Session

variable {h : Host} {σ : Process} {c : Session} {text : Str} {now : ℤ}

theorem Follows.alike (hc : c.Follows now σ) : σ.Alike c.process := by
  refine Transition.System.exec_invariant_of_forall
    (P := fun l => ∃ a : Act, l ∈ a.labels now) ?_ ?_ (Process.Alike.refl σ) hc
  · rintro l σ' σ'' ⟨a, ha⟩ hσ' hstep
    exact hσ'.act ha hstep
  · intro l hl
    obtain ⟨d, -, hl⟩ := List.mem_flatMap.1 hl
    exact ⟨d.1, hl⟩

/-- One more act, with its steps. -/
theorem Follows.snoc (hc : c.Follows now σ) {c' : Session} {a : Act}
    (hacts : c'.acts = c.acts ++ [(a, text)])
    (hexec : machine.exec (a.labels now) c.process = .ok c'.process) : c'.Follows now σ := by
  unfold Follows
  rw [hacts, List.flatMap_append]
  refine Transition.System.exec_append_eq_ok.2 ⟨c.process, hc, ?_⟩
  simpa using hexec

theorem Follows.of_eq (hc : c.Follows now σ) {c' : Session} (hacts : c'.acts = c.acts)
    (hprocess : c'.process = c.process) : c'.Follows now σ := by
  unfold Follows
  rw [hacts, hprocess]
  exact hc

theorem Follows.act (hc : c.Follows now σ) {a : Act} (ha : a.labels now = []) :
    (c.act text a).Follows now σ := by
  apply hc.snoc rfl
  rw [ha]
  rfl

theorem Follows.quit (hc : c.Follows h.now σ) (i : ℕ) :
    ((c.act text (.quit i)).addWorkunit h i .exit none).Follows h.now σ :=
  hc.snoc rfl rfl

/-! ## Sending -/

/-- A text that tells nothing without the key: a result under `otp_e`, or the failure code. -/
def Sealed (h : Host) (k : OtpKey) (t : Str) : Prop :=
  t = str "2" ∨
    ∃ tmp pt, otpE h.keyfile h.junkE k.keyfile k.offset tmp = .ok (0, pt) ∧ t = envelope k pt

/-- A reply is one text, sealed if there is a key, or the encryption has no meaning. -/
theorem reply_cases (c : Session) (h : Host) (key : Option OtpKey) (tmp : Str) :
    (∃ t, c.reply h key tmp = (c.send h t).2.close ∧ (key = none → t = tmp) ∧
      ∀ k, key = some k → Sealed h k t) ∨
    ∃ halt, c.reply h key tmp = c.stop halt := by
  cases key with
  | none => exact .inl ⟨tmp, rfl, fun _ => rfl, by simp⟩
  | some k =>
    simp only [reply]
    cases hres : otpE h.keyfile h.junkE k.keyfile k.offset tmp with
    | error halt => exact .inr ⟨halt, rfl⟩
    | ok r =>
      obtain ⟨res, pt⟩ := r
      refine .inl ⟨_, rfl, by simp, ?_⟩
      rintro k' hk
      obtain rfl := Option.some.inj hk
      by_cases hpos : res > 0
      · exact .inl (if_pos hpos)
      · obtain rfl : res = 0 := by omega
        exact .inr ⟨tmp, pt, hres, if_neg hpos⟩

@[simp] theorem reply_process (c : Session) (h : Host) (key : Option OtpKey) (tmp : Str) :
    (c.reply h key tmp).process = c.process := by
  obtain ⟨t, ht, -⟩ | ⟨halt, ht⟩ := reply_cases c h key tmp <;> rw [ht] <;> rfl

@[simp] theorem reply_acts (c : Session) (h : Host) (key : Option OtpKey) (tmp : Str) :
    (c.reply h key tmp).acts = c.acts := by
  obtain ⟨t, ht, -⟩ | ⟨halt, ht⟩ := reply_cases c h key tmp <;> rw [ht] <;> rfl

/-! ## Commands for one scheduler -/

/-- The loop goes on if the text of the first program was sent. -/
theorem sendInfos_cons (h : Host) (text : Str) (i : ℕ) (p : ProgPtr) (ps : List ProgPtr)
    (c : Session) :
    sendInfos h text i (p :: ps) c = sendInfos h text i ps (sendInfo h text i p c).2 ∨
      sendInfos h text i (p :: ps) c = (sendInfo h text i p c).2 := by
  simp only [sendInfos]
  split_ifs
  · exact .inl rfl
  · exact .inr rfl

theorem sendInfos_follows (i : ℕ) (ps : List ProgPtr) (hc : c.Follows now σ) :
    (sendInfos h text i ps c).Follows now σ := by
  induction ps generalizing c with
  | nil => exact hc
  | cons p ps ih =>
    have hact : (c.act text (.info i)).Follows now σ := hc.act rfl
    rcases sendInfos_cons h text i p ps c with hrest | hrest <;> rw [hrest]
    · exact ih (hact.of_eq rfl rfl)
    · exact hact.of_eq rfl rfl

/-- `info` is answered when there is a program to send. -/
theorem sendInfos_acts (i : ℕ) (ps : List ProgPtr) :
    Adds acts (fun d => d.2 = text ∧ ps ≠ [] ∧ d.1 = .info i) c (sendInfos h text i ps c) := by
  induction ps generalizing c with
  | nil => exact (Adds.of_eq rfl).congr (by simp)
  | cons p ps ih =>
    have hone : Adds acts (fun d => d = (Act.info i, text)) c (sendInfo h text i p c).2 :=
      Adds.singleton rfl
    rcases sendInfos_cons h text i p ps c with hrest | hrest <;> rw [hrest]
    · apply (hone.trans ih).congr
      intro d
      constructor
      · rintro (rfl | ⟨ht, -, ha⟩)
        · exact ⟨rfl, List.cons_ne_nil p ps, rfl⟩
        · exact ⟨ht, List.cons_ne_nil p ps, ha⟩
      · rintro ⟨ht, -, ha⟩
        exact .inl (Prod.ext ha ht)
    · apply hone.congr
      intro d
      rw [Prod.ext_iff]
      simp [and_comm]

/-- What `Scheduler::command( sock_fd, cmd )` does for scheduler `i`. -/
def Nested (σ : Process) (i : ℕ) (cmd : Str) : Act → Prop := fun a =>
  cmd = str "info" ∧ (σ.thread i).s.programs ≠ [] ∧ a = .info i ∨
    cmd = str "quit" ∧ a = .quit i

theorem commandFd_follows (i : ℕ) (cmd : Str) (hc : c.Follows h.now σ) :
    (commandFd h text i cmd c).Follows h.now σ := by
  unfold commandFd
  split_ifs
  · exact sendInfos_follows i _ hc
  · exact hc.quit i
  · exact hc

theorem commandFd_acts (i : ℕ) (cmd : Str) (hc : c.Follows h.now σ) :
    Adds acts (fun d => d.2 = text ∧ Nested σ i cmd d.1) c (commandFd h text i cmd c) := by
  unfold commandFd Nested
  split_ifs with hinfo hquit
  · apply (sendInfos_acts i _).congr
    intro d
    simp +decide [hinfo, hc.alike.programs]
  · apply (Adds.singleton (a := (Act.quit i, text)) rfl).congr
    intro d
    rw [Prod.ext_iff]
    simp +decide [hquit, and_comm]
  · exact (Adds.of_eq rfl).congr (by simp [hinfo, hquit])

/-- What `Scheduler::command( cmd )` does for scheduler `i`. -/
def Answered (i : ℕ) (cmd : Str) : Act → Prop := fun a =>
  cmd = str "info" ∧ a = .info i ∨ cmd = str "quit" ∧ a = .quit i ∨ cmd = str "log" ∧ a = .log i

theorem command_follows (i : ℕ) (cmd : Str) (hc : c.Follows h.now σ) :
    (command h text i cmd c).2.Follows h.now σ := by
  unfold command
  split_ifs
  · exact hc.act rfl
  · exact hc.quit i
  · exact hc.act rfl
  · exact hc

theorem command_acts (i : ℕ) (cmd : Str) :
    Adds acts (fun d => d.2 = text ∧ Answered i cmd d.1) c (command h text i cmd c).2 := by
  have hone : ∀ {c' : Session} {a : Act}, c'.acts = c.acts ++ [(a, text)] →
      Adds acts (fun d => d.2 = text ∧ d.1 = a) c c' := fun hacts =>
    (Adds.singleton hacts).congr fun d => by rw [Prod.ext_iff, and_comm]
  unfold command Answered
  split_ifs with hinfo hquit hlog
  · exact (hone rfl).congr fun d => by simp +decide [hinfo]
  · exact (hone rfl).congr fun d => by simp +decide [hquit]
  · exact (hone rfl).congr fun d => by simp +decide [hlog]
  · exact (Adds.of_eq rfl).congr (by simp [hinfo, hquit, hlog])

theorem addWorkunit_addNamed {wType : WType} {name : Str} {i : ℕ} {p : ProgPtr}
    (hp : (c.process.thread i).s.getProgramByName name = some p) :
    c.process.addNamed i wType name h.now = (c.addWorkunit h i wType (some p)).process := by
  unfold Process.addNamed
  rw [hp]
  rfl

theorem addNamed_follows {wType : WType} {name : Str} {a : Act} {i : ℕ}
    (ha : ∀ τ : Process, machine.exec (a.labels h.now) τ = .ok (τ.addNamed i wType name h.now))
    (hc : c.Follows h.now σ) : (addNamed h text wType name a i c).2.Follows h.now σ := by
  unfold addNamed
  cases hp : (c.process.thread i).s.getProgramByName name with
  | none => exact hc
  | some p =>
    apply hc.snoc (a := a) rfl
    rw [ha, addWorkunit_addNamed hp]
    rfl

/-- What `<start name="" />` or `<stop name="" />` does for scheduler `i`. -/
def Named (σ : Process) (name : Str) (act : ℕ → Str → Act) (i : ℕ) : Act → Prop := fun a =>
  a = act i name ∧ ((σ.thread i).s.getProgramByName name).isSome

theorem addNamed_acts {wType : WType} {name : Str} {act : ℕ → Str → Act} {i : ℕ}
    (hc : c.Follows h.now σ) :
    Adds acts (fun d => d.2 = text ∧ Named σ name act i d.1) c
      (addNamed h text wType name (act i name) i c).2 := by
  unfold addNamed Named
  rw [← hc.alike.getProgramByName]
  cases hp : (c.process.thread i).s.getProgramByName name with
  | none => exact (Adds.of_eq rfl).congr (by simp)
  | some p =>
    apply (Adds.singleton (a := (act i name, text)) rfl).congr
    intro d
    rw [Prod.ext_iff]
    simp [and_comm]

/-! ## The loops over the schedulers and over the children of a command -/

section Loops

variable {f : ℕ → Session → XMLNode × Session} {F : ℕ → Act → Prop}

theorem forSchedulers_follows (hf : ∀ i c, c.Follows now σ → (f i c).2.Follows now σ)
    (result : XMLNode) (hc : c.Follows now σ) :
    (forSchedulers f result c).2.Follows now σ := by
  unfold forSchedulers
  apply List.foldlRecOn (motive := fun rc : XMLNode × Session => rc.2.Follows now σ) _ _ hc
  exact fun rc hrc i _ => hf i rc.2 hrc

theorem forSchedulers_acts (hf : ∀ i c, c.Follows now σ → (f i c).2.Follows now σ)
    (hF : ∀ i c, c.Follows now σ → Adds acts (fun d => d.2 = text ∧ F i d.1) c (f i c).2)
    (result : XMLNode) (hc : c.Follows now σ) :
    Adds acts (fun d => d.2 = text ∧ ∃ i < σ.count, F i d.1) c
      (forSchedulers f result c).2 := by
  have hloop : Adds (fun rc : XMLNode × Session => rc.2.acts)
      (fun d => ∃ i ∈ List.range c.process.count, d.2 = text ∧ F i d.1) (result, c)
      (forSchedulers f result c) := by
    unfold forSchedulers
    refine Adds.foldl (I := fun rc : XMLNode × Session => rc.2.Follows now σ) ?_ ?_ hc
    · exact fun rc i _ hrc => hf i rc.2 hrc
    · exact fun rc i _ hrc => hF i rc.2 hrc
  obtain ⟨new, hnew, hmem⟩ := hloop
  refine ⟨new, hnew, fun d => (hmem d).trans ?_⟩
  simp only [List.mem_range, hc.alike.count]
  constructor
  · rintro ⟨i, hi, ht, hF⟩
    exact ⟨ht, i, hi, hF⟩
  · rintro ⟨ht, i, hi, hF⟩
    exact ⟨i, hi, ht, hF⟩

end Loops

theorem children_follows (i : ℕ) (xs : List XMLNode) (hc : c.Follows h.now σ) :
    (xs.foldl (fun c child => commandFd h text i child.name c) c).Follows h.now σ := by
  apply List.foldlRecOn (motive := fun c : Session => c.Follows h.now σ) _ _ hc
  exact fun c hc' child _ => commandFd_follows i child.name hc'

theorem children_acts (i : ℕ) (xs : List XMLNode) (hc : c.Follows h.now σ) :
    Adds acts (fun d => d.2 = text ∧ ∃ child ∈ xs, Nested σ i child.name d.1) c
      (xs.foldl (fun c child => commandFd h text i child.name c) c) := by
  have hloop : Adds acts (fun d => ∃ child ∈ xs, d.2 = text ∧ Nested σ i child.name d.1) c
      (xs.foldl (fun c child => commandFd h text i child.name c) c) := by
    refine Adds.foldl (I := fun c : Session => c.Follows h.now σ) ?_ ?_ hc
    · exact fun c child _ hc' => commandFd_follows i child.name hc'
    · exact fun c child _ hc' => commandFd_acts i child.name hc'
  apply hloop.congr
  intro d
  constructor
  · rintro ⟨child, hchild, ht, hn⟩
    exact ⟨ht, child, hchild, hn⟩
  · rintro ⟨ht, child, hchild, hn⟩
    exact ⟨child, hchild, ht, hn⟩

end Session

/-! ## What a command is for -/

/-- `x` is a `<scheduler>` element for scheduler `i` with a child `cmd`. -/
def XMLNode.Addresses (σ : Process) (x : XMLNode) (i : ℕ) (cmd : Str) : Prop :=
  x.name = str "scheduler" ∧ σ.getScheduler (x.nameAttribute (str "default")) = some i ∧
    ∃ child ∈ x.children, child.name = cmd

/-- The acts the command `x` is for. -/
def XMLNode.Causes (σ : Process) (x : XMLNode) : Act → Prop
  | .status => x.name = str "status"
  | .info i => x.name = str "info" ∧ i < σ.count ∨
      x.Addresses σ i (str "info") ∧ (σ.thread i).s.programs ≠ []
  | .log i => x.name = str "log" ∧ i < σ.count
  | .quit i => x.name = str "quit" ∧ i < σ.count ∨ x.Addresses σ i (str "quit")
  | .start i name => x.name = str "start" ∧ i < σ.count ∧ name = x.nameAttribute [] ∧
      ((σ.thread i).s.getProgramByName name).isSome
  | .stop i name => x.name = str "stop" ∧ i < σ.count ∧ name = x.nameAttribute [] ∧
      ((σ.thread i).s.getProgramByName name).isSome

namespace Session

variable {cfg : Config} {h : Host} {σ : Process} {c : Session} {text : Str} {x : XMLNode}

theorem dispatch_follows (cfg : Config) (text : Str) (x : XMLNode) (hc : c.Follows h.now σ) :
    (dispatch cfg h text x c).2.Follows h.now σ := by
  have hcommand : ∀ cmd, (forSchedulers (fun i => command h text i cmd)
      { name := str "peter" } c).2.Follows h.now σ := fun cmd =>
    forSchedulers_follows (fun i c => command_follows i cmd) _ hc
  unfold dispatch
  split_ifs
  · exact hc.act rfl
  · cases c.process.getScheduler (x.nameAttribute (str "default")) with
    | none => exact hc
    | some i => exact children_follows i x.children hc
  · exact hcommand (str "info")
  · exact hcommand (str "quit")
  · exact forSchedulers_follows (fun i c hc => addNamed_follows (fun _ => rfl) hc) _ hc
  · exact forSchedulers_follows (fun i c hc => addNamed_follows (fun _ => rfl) hc) _ hc
  · exact hcommand (str "log")
  · exact hc

/-- The dispatcher carries out what the command is for. -/
theorem dispatch_acts (cfg : Config) (text : Str) (x : XMLNode) (hc : c.Follows h.now σ) :
    Adds acts (fun d => d.2 = text ∧ x.Causes σ d.1) c (dispatch cfg h text x c).2 := by
  have hcommand : ∀ cmd, Adds acts (fun d => d.2 = text ∧ ∃ i < σ.count, Answered i cmd d.1) c
      (forSchedulers (fun i => command h text i cmd) { name := str "peter" } c).2 := fun cmd =>
    forSchedulers_acts (fun i c => command_follows i cmd) (fun i c _ => command_acts i cmd) _ hc
  unfold dispatch
  split_ifs with hstatus hscheduler hinfo hquit hstart hstop hlog
  · apply (Adds.singleton (a := (Act.status, text)) rfl).congr
    rintro ⟨a, t⟩
    cases a <;> simp +decide [XMLNode.Causes, XMLNode.Addresses, hstatus]
  · rw [hc.alike.getScheduler]
    cases hi : σ.getScheduler (x.nameAttribute (str "default")) with
    | none =>
      apply (Adds.of_eq rfl).congr
      rintro ⟨a, t⟩
      cases a <;> simp +decide [XMLNode.Causes, XMLNode.Addresses, hscheduler, hi]
    | some i =>
      apply (children_acts i x.children hc).congr
      rintro ⟨a, t⟩
      cases a <;> simp +decide [XMLNode.Causes, XMLNode.Addresses, Nested, hscheduler, hi] <;> grind
  · apply (hcommand (str "info")).congr
    rintro ⟨a, t⟩
    cases a <;> simp +decide [XMLNode.Causes, XMLNode.Addresses, Answered, hinfo]
  · apply (hcommand (str "quit")).congr
    rintro ⟨a, t⟩
    cases a <;> simp +decide [XMLNode.Causes, XMLNode.Addresses, Answered, hquit]
  · refine (forSchedulers_acts (F := Named σ (x.nameAttribute []) Act.start)
      (fun i c hc => addNamed_follows (fun _ => rfl) hc) (fun i c hc => addNamed_acts hc) _
      hc).congr ?_
    rintro ⟨a, t⟩
    cases a <;> simp +decide [XMLNode.Causes, XMLNode.Addresses, Named, hstart]
    grind
  · refine (forSchedulers_acts (F := Named σ (x.nameAttribute []) Act.stop)
      (fun i c hc => addNamed_follows (fun _ => rfl) hc) (fun i c hc => addNamed_acts hc) _
      hc).congr ?_
    rintro ⟨a, t⟩
    cases a <;> simp +decide [XMLNode.Causes, XMLNode.Addresses, Named, hstop]
    grind
  · apply (hcommand (str "log")).congr
    rintro ⟨a, t⟩
    cases a <;> simp +decide [XMLNode.Causes, XMLNode.Addresses, Answered, hlog]
  · apply (Adds.of_eq rfl).congr
    rintro ⟨a, t⟩
    cases a <;> simp [XMLNode.Causes, XMLNode.Addresses, *]

/-! ## What is sent -/

/-- A `send` of the element of a program of scheduler `i`. -/
def SendsInfo (h : Host) (σ : Process) (i : ℕ) (e : Io) : Prop :=
  ∃ p ok, e = .send (((σ.thread i).s.prog p).xmlInfo h.utc).toStr ok

theorem sendInfo_io (h : Host) (text : Str) (i : ℕ) (p : ProgPtr) (hc : σ.Alike c.process) :
    ∃ e, (sendInfo h text i p c).2.io = c.io ++ [e] ∧ SendsInfo h σ i e :=
  ⟨_, rfl, p, _, by rw [← hc.prog]⟩

theorem sendInfos_io (i : ℕ) (ps : List ProgPtr) (hc : σ.Alike c.process) :
    AddsOnly io (SendsInfo h σ i) c (sendInfos h text i ps c) := by
  induction ps generalizing c with
  | nil => exact AddsOnly.of_eq rfl
  | cons p ps ih =>
    obtain ⟨e, he, hinfo⟩ := sendInfo_io h text i p hc
    have hone : AddsOnly io (SendsInfo h σ i) c (sendInfo h text i p c).2 :=
      AddsOnly.singleton he hinfo
    rcases sendInfos_cons h text i p ps c with hrest | hrest <;> rw [hrest]
    · exact hone.trans (ih hc)
    · exact hone

/-- Where there is a program, its element is sent. -/
theorem sendInfos_sends (i : ℕ) {ps : List ProgPtr} (hps : ps ≠ []) (hc : σ.Alike c.process) :
    ∃ e ∈ (sendInfos h text i ps c).io, SendsInfo h σ i e := by
  cases ps with
  | nil => exact absurd rfl hps
  | cons p ps =>
    obtain ⟨e, he, hinfo⟩ := sendInfo_io h text i p hc
    have hmem : e ∈ (sendInfo h text i p c).2.io := by simp [he]
    refine ⟨e, ?_, hinfo⟩
    rcases sendInfos_cons h text i p ps c with hrest | hrest <;> rw [hrest]
    · exact (sendInfos_io i ps (c := (sendInfo h text i p c).2) hc).mem hmem
    · exact hmem

theorem commandFd_io (i : ℕ) (cmd : Str) (hc : σ.Alike c.process) :
    AddsOnly io (fun e => SendsInfo h σ i e ∧ cmd = str "info" ∧ (σ.thread i).s.programs ≠ []) c
      (commandFd h text i cmd c) := by
  unfold commandFd
  split_ifs with hinfo
  · rw [hc.programs]
    by_cases hps : (σ.thread i).s.programs = []
    · rw [hps]
      exact AddsOnly.of_eq rfl
    · exact (sendInfos_io i _ hc).mono fun e he => ⟨he, hinfo, hps⟩
  · exact AddsOnly.of_eq rfl
  · exact AddsOnly.of_eq rfl

theorem commandFd_sends (h : Host) (text : Str) (i : ℕ) {cmd : Str} (hcmd : cmd = str "info")
    (hps : (σ.thread i).s.programs ≠ []) (hc : σ.Alike c.process) :
    ∃ e ∈ (commandFd h text i cmd c).io, SendsInfo h σ i e := by
  unfold commandFd
  rw [if_pos hcmd]
  exact sendInfos_sends i (hc.programs i ▸ hps) hc

theorem children_io (i : ℕ) (xs : List XMLNode) (hc : c.Follows h.now σ) :
    AddsOnly io (fun e => SendsInfo h σ i e ∧ (∃ child ∈ xs, child.name = str "info") ∧
      (σ.thread i).s.programs ≠ []) c
      (xs.foldl (fun c child => commandFd h text i child.name c) c) := by
  refine AddsOnly.foldl (I := fun c : Session => c.Follows h.now σ) ?_ ?_ hc
  · exact fun c child _ hc' => commandFd_follows i child.name hc'
  · intro c child hchild hc'
    apply (commandFd_io i child.name hc'.alike).mono
    rintro e ⟨he, hname, hps⟩
    exact ⟨he, ⟨child, hchild, hname⟩, hps⟩

theorem children_sends (i : ℕ) {xs : List XMLNode} (hxs : ∃ child ∈ xs, child.name = str "info")
    (hps : (σ.thread i).s.programs ≠ []) (hc : c.Follows h.now σ) :
    ∃ e ∈ (xs.foldl (fun c child => commandFd h text i child.name c) c).io, SendsInfo h σ i e := by
  induction xs generalizing c with
  | nil => simp at hxs
  | cons y ys ih =>
    have hfollows : (commandFd h text i y.name c).Follows h.now σ := commandFd_follows i y.name hc
    by_cases hy : y.name = str "info"
    · obtain ⟨e, he, hinfo⟩ := commandFd_sends h text i hy hps hc.alike
      exact ⟨e, (children_io i ys hfollows).mem he, hinfo⟩
    · refine ih ?_ hfollows
      obtain ⟨child, hchild, hname⟩ := hxs
      rcases List.mem_cons.1 hchild with rfl | hchild
      · exact absurd hname hy
      · exact ⟨child, hchild, hname⟩

end Session

/-- The command has an `info` inside a `<scheduler>` element of a scheduler with programs. -/
def XMLNode.Discloses (σ : Process) (x : XMLNode) (i : ℕ) : Prop :=
  x.Addresses σ i (str "info") ∧ (σ.thread i).s.programs ≠ []

namespace Session

variable {cfg : Config} {h : Host} {σ : Process} {c : Session} {text : Str} {x : XMLNode}

@[simp] theorem command_io (i : ℕ) (cmd : Str) (c : Session) :
    (command h text i cmd c).2.io = c.io := by
  unfold command
  split_ifs <;> rfl

@[simp] theorem addNamed_io (wType : WType) (name : Str) (a : Act) (i : ℕ) (c : Session) :
    (addNamed h text wType name a i c).2.io = c.io := by
  unfold addNamed
  cases (c.process.thread i).s.getProgramByName name <;> rfl

/-- What the rounds of a loop over the schedulers leave as it is, the loop does. -/
theorem forSchedulers_frame {β : Type} (F : Session → β) {f : ℕ → Session → XMLNode × Session}
    (hf : ∀ i c, F (f i c).2 = F c) (result : XMLNode) (c : Session) :
    F (forSchedulers f result c).2 = F c := by
  unfold forSchedulers
  apply List.foldlRecOn (motive := fun rc : XMLNode × Session => F rc.2 = F c) _ _ rfl
  exact fun rc hrc i _ => (hf i rc.2).trans hrc

/-- The dispatcher itself sends nothing but the programs of a scheduler addressed by name. -/
theorem dispatch_io (cfg : Config) (text : Str) (x : XMLNode) (hc : c.Follows h.now σ) :
    AddsOnly io (fun e => ∃ i, SendsInfo h σ i e ∧ x.Discloses σ i) c
      (dispatch cfg h text x c).2 := by
  unfold dispatch
  split_ifs with hstatus hscheduler hinfo hquit hstart hstop hlog
  · exact AddsOnly.of_eq rfl
  · rw [hc.alike.getScheduler]
    cases hi : σ.getScheduler (x.nameAttribute (str "default")) with
    | none => exact AddsOnly.of_eq rfl
    | some i =>
      apply (children_io i x.children hc).mono
      rintro e ⟨he, hchild, hps⟩
      exact ⟨i, he, ⟨hscheduler, hi, hchild⟩, hps⟩
  · exact AddsOnly.of_eq (forSchedulers_frame io (fun i c => command_io i _ c) _ c)
  · exact AddsOnly.of_eq (forSchedulers_frame io (fun i c => command_io i _ c) _ c)
  · exact AddsOnly.of_eq (forSchedulers_frame io (fun i c => addNamed_io _ _ _ i c) _ c)
  · exact AddsOnly.of_eq (forSchedulers_frame io (fun i c => addNamed_io _ _ _ i c) _ c)
  · exact AddsOnly.of_eq (forSchedulers_frame io (fun i c => command_io i _ c) _ c)
  · exact AddsOnly.of_eq rfl

theorem dispatch_sends (cfg : Config) (text : Str) {i : ℕ} (hx : x.Discloses σ i)
    (hc : c.Follows h.now σ) : ∃ e ∈ (dispatch cfg h text x c).2.io, SendsInfo h σ i e := by
  obtain ⟨⟨hname, hi, hchild⟩, hps⟩ := hx
  have hstatus : x.name ≠ str "status" := by
    rw [hname]
    decide
  unfold dispatch
  rw [if_neg hstatus, if_pos hname, hc.alike.getScheduler, hi]
  exact children_sends i hchild hps hc

/-! ## Messages and connections -/

/-- The session when a message is read: the client was told to send one. -/
def accepted (σ : Process) : Session := { process := σ, io := [.send (str "1") true] }

theorem accepted_follows (σ : Process) (now : ℤ) : (accepted σ).Follows now σ := rfl

theorem execute_follows {key : Option OtpKey} (hc : c.Follows h.now σ) :
    (execute cfg h key text x c).Follows h.now σ := by
  unfold execute
  split_ifs
  · exact hc.of_eq rfl rfl
  · exact (dispatch_follows cfg text x hc).of_eq (reply_acts _ _ _ _) (reply_process _ _ _ _)

theorem execute_acts {key : Option OtpKey} (hc : c.Follows h.now σ) :
    Adds acts (fun d => d.2 = text ∧ cfg.cmdAllowed x.name ∧ x.Causes σ d.1) c
      (execute cfg h key text x c) := by
  unfold execute
  split_ifs with hallowed
  · have hno : ¬ cfg.cmdAllowed x.name := by simpa using hallowed
    exact (Adds.of_eq rfl).congr (by simp [hno])
  · have hyes : cfg.cmdAllowed x.name = true := by simpa using hallowed
    obtain ⟨new, hnew, hmem⟩ := dispatch_acts cfg text x hc
    refine ⟨new, (reply_acts _ _ _ _).trans hnew, fun d => ?_⟩
    rw [hmem, hyes]
    simp

variable {peer cmd : Str}

/-- A message that may not come in clear is not turned away if it has an `<otp` in it. -/
theorem otpOnly_eq_false (hotp : cfg.otpOnly = true → (find cmd (str "<otp ") 0).isSome) :
    ((find cmd (str "<otp ") 0).isNone && cfg.otpOnly) = false := by
  cases hb : cfg.otpOnly with
  | false => simp
  | true =>
    have hsome := hotp hb
    rw [← Option.not_isNone] at hsome
    simpa using hsome

theorem message_of_accepts {key : Option OtpKey} (ha : cfg.Accepts h peer cmd key text x)
    (c : Session) : message cfg h peer cmd c = execute cfg h key text x c := by
  unfold message
  rw [otpOnly_eq_false ha.otp, ha.peer, ha.decode]
  rfl

/-- A message that is not accepted gets an error in clear, or no answer. -/
theorem message_of_not_accepts
    (hno : ∀ key text x, ¬ cfg.Accepts h peer cmd key text x) (c : Session) :
    message cfg h peer cmd c = c.close ∨
      (∃ type, message cfg h peer cmd c = (c.send h (errorResult type).toStr).2.close ∧
        (cfg.peerAllowed peer = true → h.decode cmd = .parseError false)) ∨
      ∃ halt, message cfg h peer cmd c = c.stop halt := by
  unfold message
  split_ifs with hotp hpeer
  · exact .inl rfl
  · exact .inr (.inl ⟨_, rfl, fun hyes => by simp [hyes] at hpeer⟩)
  · have hyes : cfg.peerAllowed peer = true := by simpa using hpeer
    cases hdecode : h.decode cmd with
    | command key text x =>
      refine absurd ⟨fun hb => ?_, hyes, hdecode⟩ (hno key text x)
      simpa [hb, Option.isSome_iff_ne_none] using hotp
    | parseError otpMode =>
      cases otpMode with
      | true => exact .inl rfl
      | false => exact .inr (.inl ⟨_, rfl, fun _ => rfl⟩)
    | halt halt => exact .inr (.inr ⟨halt, rfl⟩)

theorem message_follows (hc : c.Follows h.now σ) : (message cfg h peer cmd c).Follows h.now σ := by
  by_cases ha : ∃ key text x, cfg.Accepts h peer cmd key text x
  · obtain ⟨key, text, x, ha⟩ := ha
    rw [message_of_accepts ha]
    exact execute_follows hc
  · have hno := fun key text x hx => ha ⟨key, text, x, hx⟩
    rcases message_of_not_accepts hno c with hm | ⟨t, hm, -⟩ | ⟨halt, hm⟩ <;> rw [hm]
    · exact hc.of_eq rfl rfl
    · exact hc.of_eq rfl rfl
    · exact hc.of_eq rfl rfl

/-- A message carries out the acts its command is for, if it is accepted and the command is
allowed. -/
theorem message_acts (hc : c.Follows h.now σ) :
    Adds acts (fun d => ∃ key x, cfg.Accepts h peer cmd key d.2 x ∧ cfg.cmdAllowed x.name ∧
      x.Causes σ d.1) c (message cfg h peer cmd c) := by
  by_cases ha : ∃ key text x, cfg.Accepts h peer cmd key text x
  · obtain ⟨key, text, x, ha⟩ := ha
    rw [message_of_accepts ha]
    apply (execute_acts hc).congr
    intro d
    constructor
    · rintro ⟨rfl, hcause⟩
      exact ⟨key, x, ha, hcause⟩
    · rintro ⟨key', x', ha', hcause⟩
      obtain ⟨-, rfl, rfl⟩ := Decoded.command.inj (ha.decode.symm.trans ha'.decode)
      exact ⟨rfl, hcause⟩
  · have hno := fun key text x hx => ha ⟨key, text, x, hx⟩
    have hnone : (message cfg h peer cmd c).acts = c.acts := by
      rcases message_of_not_accepts hno c with hm | ⟨t, hm, -⟩ | ⟨halt, hm⟩ <;> rw [hm] <;> rfl
    apply (Adds.of_eq hnone).congr
    intro d
    constructor
    · exact False.elim
    · rintro ⟨key, x, hx, -⟩
      exact hno key d.2 x hx

theorem mem_message_acts {d : Act × Str} :
    d ∈ (message cfg h peer cmd (accepted σ)).acts ↔
      ∃ key x, cfg.Accepts h peer cmd key d.2 x ∧ cfg.cmdAllowed x.name ∧ x.Causes σ d.1 := by
  rw [(message_acts (accepted_follows σ h.now)).mem_iff]
  simp [accepted]

theorem sendGui_follows (rv : List Str) (hc : c.Follows h.now σ) :
    (sendGui h rv c).Follows h.now σ := by
  induction rv generalizing c with
  | nil => exact hc
  | cons r rv ih =>
    simp only [sendGui]
    split_ifs
    · exact ih (hc.of_eq rfl rfl)
    · exact ih (hc.of_eq rfl rfl)

/-- All a connection does to the schedulers are the commands it carries out. -/
theorem serve_follows (input : Input) (hc : c.Follows h.now σ) :
    (serve cfg h peer input c).Follows h.now σ := by
  unfold serve
  cases input.read with
  | waiting => exact hc
  | overrun => exact hc.of_eq rfl rfl
  | text id rest =>
    simp only
    split_ifs
    · simp only [pcmd]
      split_ifs
      · exact hc.of_eq rfl rfl
      · cases rest.read with
        | waiting => exact hc.of_eq rfl rfl
        | overrun => exact hc.of_eq rfl rfl
        | text cmd _ => exact message_follows (hc.of_eq rfl rfl)
    · exact (sendGui_follows _ hc).of_eq rfl rfl
    · exact hc.of_eq rfl rfl

/-- A connection over a process, from its beginning. -/
def connection (cfg : Config) (h : Host) (peer : Str) (input : Input) (σ : Process) : Session :=
  serve cfg h peer input { process := σ }

/-- It is a run of the process: the steps of the commands it carried out. -/
theorem connection_run (cfg : Config) (h : Host) (peer : Str) (input : Input) (σ : Process) :
    machine.exec ((connection cfg h peer input σ).acts.flatMap fun d => d.1.labels h.now) σ =
      .ok (connection cfg h peer input σ).process :=
  serve_follows input (c := { process := σ }) rfl

/-- A client that says `pcmd` and sends a message has it handled. -/
theorem connection_eq_message {input rest rest' : Input}
    (hid : input.read = .text (str "pcmd") rest) (hcmd : rest.read = .text cmd rest')
    (hsend : h.sendOk 0 = true) :
    connection cfg h peer input σ = message cfg h peer cmd (accepted σ) := by
  have hpcmd : connection cfg h peer input σ = pcmd cfg h peer rest { process := σ } := by
    simp only [connection, serve, hid]
    rfl
  rw [hpcmd]
  simp only [pcmd, hcmd, send, List.length_nil, hsend, List.not_mem_nil]
  rfl

end Session

end Peter
