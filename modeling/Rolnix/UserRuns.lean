import Rolnix.ProcessesProof
import Rolnix.UserProgProof
import Mathlib.Tactic.IntervalCases

/-!
# The ring-3 program under the scheduler

Fifteen slots, each with a copy of `user_prog.s` when it is started, and the kernel that runs them: a move
is an instruction of the process on the processor, an interrupt, or something the shell does.

**Theorem (`userProg_output`).** However the moves follow each other, what a process has printed since it was
started is a part of the text the program is written to print, and all of it once the process has
exited. The process on the processor can always go on.

Three results meet here. A process that is switched away from finds its registers again
(`Refines.step`), nobody else writes its memory (`Refines.exec_userMem`, `Program.step_framed`), and the
program by itself prints its text and nothing else (`UserImage.exec_rest`).
-/

namespace Rolnix

open X86
open Runs (Exec)

/-! ## The moves -/

/-- The node, and what is remembered of each process. -/
structure Session where
  node : Node
  /-- The length of the console when the slot was started last. -/
  mark : Nat → Nat
  /-- The process was killed, and did not exit by itself. -/
  killed : Nat → Bool

/-- What the process in slot `pid` has printed since it was started. -/
def Session.output (S : Session) (pid : Nat) : List UInt8 :=
  ((S.node.console.drop (S.mark pid)).filter fun e => e.1 = pid).map Prod.snd

inductive Move
  /-- The process on the processor executes its next instruction. -/
  | user (left : Leftovers)
  /-- The shell goes on by itself. -/
  | shell (cpu : Cpu) (mem : ByteMem)
  | irq (line : Nat) (code : UInt8) (left : Leftovers)
  /-- The shell starts a process, with the memory in `image`. -/
  | start (name : List UInt8) (image : ByteMem)
  | kill (pid : Nat)
  | poll

/-- The byte is in the region of slot `pid`. -/
def InRegion (pid x : Nat) : Prop := userCodeVa pid ≤ x ∧ x < userCodeVa pid + procStride

instance (pid x : Nat) : Decidable (InRegion pid x) := inferInstanceAs (Decidable (_ ∧ _))

section Moves

variable (L : ProcLayout) (T : Text) (U : ∀ pid, UserImage pid)

/-- One instruction of the process on the processor; an `int 0x80` enters the kernel. `none` is a
fault. -/
def Node.userStep (n : Node) (left : Leftovers) : Option Node := do
  let r ← (U n.sched.current).program.step (userWindow n.sched.current) n.state
  let n' ← n.exec L T (.own r.1.cpu r.1.mem)
  match r.2 with
  | none => return n'
  | some v => if v = 0x80 then n'.exec L T (.syscall left) else none

/-- Load the region of a free slot, and start it. -/
def Session.launch (S : Session) (name : List UInt8) (image : ByteMem) (pid : Nat) : Option Session := do
  let n ← S.node.exec L T (.own S.node.state.cpu (overwrite (fun x => ¬ InRegion pid x) S.node.state.mem image))
  let n ← n.exec L T (.start name)
  return ⟨n, Function.update S.mark pid n.console.length, Function.update S.killed pid false⟩

def Session.exec (S : Session) : Move → Option Session
  | .user left => (S.node.userStep L T U left).map fun n => { S with node := n }
  | .shell cpu mem =>
      (S.node.exec L T (.own cpu (overwrite ProcLayout.InUser S.node.state.mem mem))).map fun n =>
        { S with node := n }
  | .irq line code left => (S.node.exec L T (.irq line code left)).map fun n => { S with node := n }
  | .start name image => S.node.sched.freeSlot.elim (some S) (S.launch L T name image)
  | .kill pid =>
      (S.node.exec L T (.kill pid)).map fun n =>
        { S with
          node := n
          killed := Function.update S.killed pid
            (S.killed pid || decide (S.node.sched.stateOf pid ≠ .zombie)) }
  | .poll => (S.node.exec L T .poll).map fun n => { S with node := n }

/-- When a move can happen. -/
def Move.Allowed (S : Session) : Move → Prop
  | .user _ => S.node.sched.current ≠ 0
  | .shell cpu _ => S.node.sched.current = 0 ∧ OwnState L 0 cpu
  | .irq line _ _ => line < 16 ∧ S.node.state.cpu.interruptFlag = true
  | .start _ image => S.node.sched.current = 0 ∧ ∀ pid, S.node.sched.freeSlot = some pid → (U pid).Loaded image
  | .kill _ | .poll => S.node.sched.current = 0

end Moves

/-! ## What a move does to a process -/

/-- The bytes among the system calls. -/
def printed (es : List Sys) : List UInt8 :=
  es.filterMap fun
    | .putc b => some b
    | _ => none

/-- Nothing has happened to the process in slot `pid`. -/
structure Procs.Untouched (p p' : Procs) (pid : Nat) : Prop where
  cpu : p'.cpus pid = p.cpus pid
  zombie : p'.states pid = .zombie ↔ p.states pid = .zombie
  unused : p'.states pid = .unused ↔ p.states pid = .unused
  console : ∃ new : List (Nat × UInt8), p'.console = p.console ++ new ∧ ∀ e ∈ new, e.1 ≠ pid

namespace Procs

variable {p p' p₁ : Procs} {pid : Nat}

theorem Untouched.of_eq (hcpu : p'.cpus pid = p.cpus pid) (hstate : p'.states pid = p.states pid)
    (hcons : p'.console = p.console) : Untouched p p' pid :=
  ⟨hcpu, by rw [hstate], by rw [hstate], [], by rw [hcons, List.append_nil], by simp⟩

theorem Untouched.refl (p : Procs) (pid : Nat) : Untouched p p pid := .of_eq rfl rfl rfl

theorem Untouched.trans (h : Untouched p p₁ pid) (h' : Untouched p₁ p' pid) : Untouched p p' pid := by
  obtain ⟨new, hnew, hne⟩ := h.console
  obtain ⟨new', hnew', hne'⟩ := h'.console
  refine ⟨h'.cpu.trans h.cpu, h'.zombie.trans h.zombie, h'.unused.trans h.unused, new ++ new', ?_, ?_⟩
  · rw [hnew', hnew, List.append_assoc]
  · intro e he
    exact (List.mem_append.1 he).elim (hne e) (hne' e)

/-- A switch changes no processor, and of the processes at most the one that is left. -/
theorem untouched_switchFrom (hcur : p.current < maxProcesses) {v : ProcState}
    (hpid : pid = p.current → v = .ready ∧ p.states pid ≠ .unused ∧ p.states pid ≠ .zombie) :
    Untouched p (p.switchFrom v) pid := by
  cases hnext : Cyclic.next maxProcesses p.current fun i =>
      Function.update p.states p.current v i = .ready with
  | none =>
      simp only [switchFrom, hnext, Function.update_idem]
      refine ⟨rfl, ?_, ?_, [], (List.append_nil _).symm, by simp⟩ <;> by_cases hp : pid = p.current <;>
        simp_all
  | some next =>
      obtain ⟨-, hne, hready, -⟩ := Cyclic.next_some hcur hnext
      rw [Function.update_of_ne hne, decide_eq_true_iff] at hready
      simp only [switchFrom, hnext]
      refine ⟨rfl, ?_, ?_, [], (List.append_nil _).symm, by simp⟩ <;> by_cases hn : pid = next <;>
        by_cases hp : pid = p.current <;> simp_all

theorem exec_start {name : List UInt8} {k : Nat} (hfree : p.freeSlot = some k) :
    p.exec (.start name) = { p with
      cpus := Function.update p.cpus k (initialCpu k), states := Function.update p.states k .ready } := by
  rw [exec, hfree, Option.elim_some]

theorem console_switchFrom (p : Procs) (v : ProcState) : (p.switchFrom v).console = p.console := by
  simp only [switchFrom]
  split <;> rfl

theorem untouched_answer (v : Quad) (hpid : pid ≠ p.current) : Untouched p (p.answer v) pid :=
  .of_eq (Function.update_of_ne hpid _ _) rfl rfl

theorem untouched_syscall (hcur : p.current < maxProcesses) (hpid : pid ≠ p.current) :
    Untouched p p.syscall pid := by
  have hswitch : ∀ v, Untouched p (p.switchFrom v) pid := fun v =>
    untouched_switchFrom hcur fun heq => absurd heq hpid
  simp only [syscall]
  split_ifs
  · exact ⟨rfl, Iff.rfl, Iff.rfl, _, rfl, by simpa using hpid.symm⟩
  · exact .of_eq (Function.update_of_ne hpid _ _) rfl rfl
  · exact hswitch _
  · exact untouched_answer _ hpid
  · exact hswitch _
  · exact untouched_answer _ hpid

end Procs

/-! ## Where a process is in its program -/

/-- The process in slot `pid` has come to `u` with the system calls `es`: it has printed the bytes among them.
While it is alive, `u` is its processor and its memory; if it is gone, it has exited or was killed. -/
structure At (U : ∀ pid, UserImage pid) (S : Session) (p : Procs) (pid : Nat) (m : ByteMem) (es : List Sys)
    (u : User) : Prop where
  loaded : (U pid).Loaded m
  exec : Exec (User.step (U pid).program pid) (User.initial pid m) es u
  output : S.output pid = printed es
  mark_le : S.mark pid ≤ p.console.length
  alive : p.states pid ≠ .zombie → u.exited = false ∧
    Same (userWindow pid) u.state ⟨p.cpus pid, S.node.state.mem⟩
  gone : p.states pid = .zombie → S.killed pid = false → u.exited = true

section Regions

variable {pid pid' x : Nat}

theorem inUser_of_inRegion (hpid : pid < maxProcesses) (hx : InRegion pid x) : ProcLayout.InUser x := by
  have hmul := Nat.mul_le_mul_right procStride (Nat.succ_le_of_lt hpid)
  obtain ⟨hlow, hhigh⟩ := hx
  rw [userCodeVa] at hlow hhigh
  rw [Nat.succ_mul] at hmul
  exact ⟨by omega, by omega⟩

theorem not_inStack_of_inUser (L : ProcLayout) {i : Nat} (hi : i < maxProcesses) (hx : ProcLayout.InUser x) :
    ¬ L.InStack i x := by
  intro hin
  have htop := L.top_le hi
  have hlow := hx.1
  have hhigh := hin.2
  omega

theorem not_inRegion_of_ne (hne : pid' ≠ pid) (hx : InRegion pid' x) : ¬ InRegion pid x := by
  rintro ⟨hlow', hhigh'⟩
  obtain ⟨hlow, hhigh⟩ := hx
  simp only [userCodeVa, procStride] at hlow hhigh hlow' hhigh'
  omega

theorem not_writable_of_inRegion (hne : pid' ≠ pid) (hx : InRegion pid' x) :
    x < (userWindow pid).writeLow ∨ (userWindow pid).writeHigh ≤ x := by
  have hnot := not_inRegion_of_ne hne hx
  have hlow : userCodeVa pid ≤ (userWindow pid).writeLow := (userWindow pid).low_le
  have hhigh : (userWindow pid).writeHigh ≤ userCodeVa pid + procStride := (userWindow pid).le_high
  by_contra hin
  exact hnot ⟨by omega, by omega⟩

end Regions

theorem At.untouched {U : ∀ pid, UserImage pid} {S S' : Session} {p p' : Procs} {pid : Nat} {m : ByteMem}
    {es : List Sys} {u : User} (h : At U S p pid m es u) (hp : p.Untouched p' pid)
    (hcons : S.node.console = p.console) (hcons' : S'.node.console = p'.console)
    (hmark : S'.mark pid = S.mark pid) (hkilled : S'.killed pid = S.killed pid)
    (hmem : ∀ x, InRegion pid x → S'.node.state.mem x = S.node.state.mem x) : At U S' p' pid m es u := by
  obtain ⟨new, hnew, hne⟩ := hp.console
  refine ⟨h.loaded, h.exec, ?_, ?_, fun hz => ?_, fun hz hk => ?_⟩
  · rw [← h.output, Session.output, Session.output, hcons', hcons, hmark, hnew,
      List.drop_append_of_le_length h.mark_le, List.filter_append]
    have hnil : new.filter (fun e => e.1 = pid) = [] := by simpa using hne
    rw [hnil, List.append_nil]
  · rw [hmark, hnew, List.length_append]
    exact h.mark_le.trans (Nat.le_add_right _ _)
  · obtain ⟨hu, hsame⟩ := h.alive (mt hp.zombie.2 hz)
    refine ⟨hu, hsame.cpu.trans hp.cpu.symm, fun x hx hx' => ?_⟩
    exact (hsame.mem x hx hx').trans (hmem x ⟨hx, hx'⟩).symm
  · exact h.gone (hp.zombie.1 hz) (hkilled ▸ hk)

/-- What the kernel answers is what `User.syscall` says. -/
theorem syscall_user {L : ProcLayout} {n : Node} {p : Procs} {s : State} {u : User} {es : List Sys}
    (h : Refines L n p) (hcur : p.current ≠ 0) (hcpu : s.cpu = p.cpus p.current)
    (hs : User.syscall p.current s = some (u, es)) :
    p.syscall.console = p.console ++ (printed es).map (fun b => (p.current, b)) ∧ u.state.mem = s.mem ∧
      (u.exited = true → p.syscall.states p.current = .zombie) ∧
      (u.exited = false → p.syscall.states p.current ≠ .zombie ∧ p.syscall.cpus p.current = u.state.cpu) := by
  have hlive := h.inv.current_live
  rw [Sched.Live, ← h.states_eq, ← h.current_eq] at hlive
  simp only [User.syscall, hcpu] at hs
  simp only [Procs.syscall]
  split_ifs at hs ⊢
  · obtain ⟨rfl, rfl⟩ := Prod.mk.inj (Option.some.inj hs)
    exact ⟨rfl, rfl, by simp, fun _ => ⟨hlive.2, hcpu.symm⟩⟩
  · obtain ⟨rfl, rfl⟩ := Prod.mk.inj (Option.some.inj hs)
    obtain ⟨next, hnext⟩ := h.exit_next (h.current_eq ▸ hcur)
    obtain ⟨-, hne, -⟩ := Sched.nextAfter_some h.inv.current_lt hnext
    rw [h.switchFrom_of_some hnext]
    refine ⟨(List.append_nil _).symm, rfl, fun _ => ?_, by simp⟩
    change Function.update (Function.update p.states p.current .zombie) next .running p.current = _
    rw [Function.update_of_ne (h.current_eq ▸ hne.symm), Function.update_self]
  · obtain ⟨rfl, rfl⟩ := Prod.mk.inj (Option.some.inj hs)
    refine ⟨(List.append_nil _).symm, rfl, by simp, fun _ => ⟨hlive.2, ?_⟩⟩
    change Function.update p.cpus p.current _ p.current = _
    rw [Function.update_self, State.set, hcpu]
  · obtain ⟨rfl, rfl⟩ := Prod.mk.inj (Option.some.inj hs)
    have hsw := @Procs.untouched_switchFrom p p.current (h.current_eq ▸ h.inv.current_lt) .ready
      fun _ => ⟨rfl, hlive⟩
    refine ⟨?_, rfl, by simp, fun _ => ⟨mt hsw.zombie.1 hlive.2, hsw.cpu.trans hcpu.symm⟩⟩
    exact (Procs.console_switchFrom p .ready).trans (List.append_nil _).symm
  · obtain ⟨rfl, rfl⟩ := Prod.mk.inj (Option.some.inj hs)
    refine ⟨(List.append_nil _).symm, rfl, by simp, fun _ => ⟨hlive.2, ?_⟩⟩
    change Function.update p.cpus p.current _ p.current = _
    rw [Function.update_self, State.set, hcpu]

/-- The process on the processor has gone on to `u'`, with the system calls `es'`. -/
theorem At.advance {U : ∀ pid, UserImage pid} {S S' : Session} {p p' : Procs} {pid : Nat} {m : ByteMem}
    {es es' : List Sys} {u u' : User} (h : At U S p pid m es u)
    (hstep : User.step (U pid).program pid u = some (u', es'))
    (hcons : S.node.console = p.console) (hcons' : S'.node.console = p'.console)
    (hnew : p'.console = p.console ++ (printed es').map fun b => (pid, b))
    (hmark : S'.mark pid = S.mark pid)
    (hexit : u'.exited = true → p'.states pid = .zombie)
    (halive : u'.exited = false → p'.states pid ≠ .zombie ∧
      Same (userWindow pid) u'.state ⟨p'.cpus pid, S'.node.state.mem⟩) :
    At U S' p' pid m (es ++ es') u' := by
  refine ⟨h.loaded, h.exec.trans (.single hstep), ?_, ?_, fun hz => ?_, fun hz _ => ?_⟩
  · have hown : ∀ bs : List UInt8, ((bs.map fun b => (pid, b)).filter fun e => e.1 = pid).map Prod.snd = bs := by
      intro bs
      rw [List.filter_eq_self.2 (by simp), List.map_map]
      exact List.map_id bs
    rw [printed, List.filterMap_append, ← printed, ← printed, ← h.output, Session.output, Session.output, hcons',
      hcons, hmark, hnew, List.drop_append_of_le_length h.mark_le, List.filter_append, List.map_append, hown]
  · rw [hmark, hnew, List.length_append]
    exact h.mark_le.trans (Nat.le_add_right _ _)
  · cases hu : u'.exited with
    | false => exact ⟨rfl, (halive hu).2⟩
    | true => exact absurd (hexit hu) hz
  · cases hu : u'.exited with
    | false => exact absurd hz (halive hu).1
    | true => rfl

/-! ## Moves keep it so -/

/-- The node refines the processes, and each process is somewhere in its program. -/
structure Good (L : ProcLayout) (U : ∀ pid, UserImage pid) (S : Session) (p : Procs) : Prop where
  refines : Refines L S.node p
  at_some : ∀ pid, pid ≠ 0 → pid < maxProcesses → p.states pid ≠ .unused →
    ∃ m es u, At U S p pid m es u

namespace Good

variable {L : ProcLayout} {T : Text} {U : ∀ pid, UserImage pid} {S S' : Session} {p p' : Procs}

theorem untouched (h : Good L U S p) (href : Refines L S'.node p')
    (hp : ∀ pid, pid ≠ 0 → p.Untouched p' pid) (hmark : S'.mark = S.mark) (hkilled : S'.killed = S.killed)
    (hmem : ∀ x, ProcLayout.InUser x → S'.node.state.mem x = S.node.state.mem x) : Good L U S' p' := by
  refine ⟨href, fun pid h0 hlt hused => ?_⟩
  obtain ⟨m, es, u, hat⟩ := h.at_some pid h0 hlt (mt (hp pid h0).unused.2 hused)
  exact ⟨m, es, u, hat.untouched (hp pid h0) h.refines.console_eq.symm href.console_eq.symm
    (congrFun hmark pid) (congrFun hkilled pid) fun x hx => hmem x (inUser_of_inRegion hlt hx)⟩

theorem current_used (h : Good L U S p) :
    p.states p.current ≠ .unused ∧ p.states p.current ≠ .zombie := by
  have hlive := h.refines.inv.current_live
  rwa [Sched.Live, ← h.refines.states_eq, ← h.refines.current_eq] at hlive

theorem current_lt (h : Good L U S p) : p.current < maxProcesses :=
  h.refines.current_eq ▸ h.refines.inv.current_lt

theorem untouched_irq (h : Good L U S p) (line : Nat) (code : UInt8) (left : Leftovers) (pid : Nat) :
    p.Untouched (p.exec (.irq line code left)) pid := by
  have hused := h.current_used
  rw [Procs.exec]
  split_ifs
  · have hsw := @Procs.untouched_switchFrom { p with ticks := p.ticks + 1 } pid h.current_lt .ready
      fun heq => ⟨rfl, heq ▸ hused⟩
    exact ⟨hsw.cpu, hsw.zombie, hsw.unused, hsw.console⟩
  · exact .of_eq rfl rfl rfl
  · exact .refl p pid

theorem kernel_move (h : Good L U S p) {ev : Event} (hev : ev.Allowed L S.node)
    (hown : ∀ cpu mem, ev ≠ .own cpu mem) (hp : ∀ pid, pid ≠ 0 → p.Untouched (p.exec ev) pid) :
    ∃ n, S.node.exec L T ev = some n ∧ Good L U { S with node := n } (p.exec ev) := by
  obtain ⟨n, hexec, href⟩ := h.refines.step (T := T) hev
  exact ⟨n, hexec, h.untouched href hp rfl rfl fun x hx => h.refines.exec_userMem hev hown hexec hx⟩

theorem own_mem {n n' : Node} {cpu : Cpu} {mem : ByteMem} {x : Nat}
    (h : n.exec L T (.own cpu mem) = some n') (hx : ProcLayout.InUser x) : n'.state.mem x = mem x := by
  obtain rfl := Option.some.inj h
  refine if_neg ?_
  rintro ⟨i, hi, hin, -⟩
  exact not_inStack_of_inUser L hi hx hin

theorem shell_move (h : Good L U S p) {cpu : Cpu} {mem : ByteMem} (hcur : S.node.sched.current = 0)
    (hcpu : OwnState L 0 cpu) :
    ∃ n, S.node.exec L T (.own cpu (overwrite ProcLayout.InUser S.node.state.mem mem)) = some n ∧
      ∃ p', Good L U { S with node := n } p' := by
  have hev : (Event.own cpu (overwrite ProcLayout.InUser S.node.state.mem mem)).Allowed L S.node := by
    change OwnState L S.node.sched.current cpu
    rwa [hcur]
  obtain ⟨n, hexec, href⟩ := h.refines.step (T := T) hev
  refine ⟨n, hexec, _, h.untouched href (fun pid h0 => ?_) rfl rfl fun x hx => ?_⟩
  · have hne : pid ≠ p.current := by rwa [h.refines.current_eq, hcur]
    exact .of_eq (Function.update_of_ne hne _ _) rfl rfl
  · exact (own_mem hexec hx).trans (if_pos hx)

theorem kill_move (h : Good L U S p) {k : Nat} (hcur : S.node.sched.current = 0) :
    ∃ S', S.exec L T U (.kill k) = some S' ∧ ∃ p', Good L U S' p' := by
  have hev : (Event.kill k).Allowed L S.node := hcur
  obtain ⟨n, hexec, href⟩ := h.refines.step (T := T) hev
  refine ⟨_, by rw [Session.exec, hexec, Option.map_some], _, href, fun pid h0 hlt hused => ?_⟩
  have hmem : ∀ x, InRegion pid x → n.state.mem x = S.node.state.mem x := fun x hx =>
    h.refines.exec_userMem hev (by simp) hexec (inUser_of_inRegion hlt hx)
  have hcons := h.refines.console_eq.symm
  have hcons' := href.console_eq.symm
  rw [Procs.exec] at hused hcons' ⊢
  by_cases hbad : k = 0 ∨ k ≥ maxProcesses ∨ p.states k = .zombie ∨ p.states k = .unused
  · rw [if_pos hbad] at hused hcons' ⊢
    obtain ⟨m, es, u, hat⟩ := h.at_some pid h0 hlt hused
    refine ⟨m, es, u, hat.untouched (.refl p pid) hcons hcons' rfl ?_ hmem⟩
    by_cases hk : pid = k
    · subst hk
      have hzombie : S.node.sched.stateOf pid = .zombie := by
        rw [← h.refines.states_eq]
        exact (hbad.resolve_left h0 |>.resolve_left (by omega)).resolve_right hused
      simp [hzombie]
    · exact Function.update_of_ne hk _ _
  · rw [if_neg hbad] at hused hcons' ⊢
    by_cases hk : pid = k
    · subst hk
      obtain ⟨m, es, u, hat⟩ := h.at_some pid h0 hlt fun hu => hbad (.inr (.inr (.inr hu)))
      refine ⟨m, es, u, hat.loaded, hat.exec, ?_, hat.mark_le, fun hz => ?_, fun _ hk => ?_⟩
      · rw [← hat.output, Session.output, Session.output, hcons', hcons]
      · exact absurd (Function.update_self pid .zombie p.states) hz
      · have hstate : S.node.sched.stateOf pid ≠ .zombie := by
          rw [← h.refines.states_eq]
          exact fun hz => hbad (.inr (.inr (.inl hz)))
        simp [hstate] at hk
    · replace hused : Function.update p.states k .zombie pid ≠ .unused := hused
      rw [Function.update_of_ne hk] at hused
      obtain ⟨m, es, u, hat⟩ := h.at_some pid h0 hlt hused
      exact ⟨m, es, u, hat.untouched (.of_eq rfl (Function.update_of_ne hk _ _) rfl) hcons hcons' rfl
        (Function.update_of_ne hk _ _) hmem⟩

theorem start_move (h : Good L U S p) {name : List UInt8} {image : ByteMem}
    (hcur : S.node.sched.current = 0)
    (hload : ∀ pid, S.node.sched.freeSlot = some pid → (U pid).Loaded image) :
    ∃ S', S.exec L T U (.start name image) = some S' ∧ ∃ p', Good L U S' p' := by
  cases hslot : S.node.sched.freeSlot with
  | none => exact ⟨S, by rw [Session.exec, hslot, Option.elim_none], p, h⟩
  | some k =>
      have hev₀ : (Event.own S.node.state.cpu
          (overwrite (fun x => ¬ InRegion k x) S.node.state.mem image)).Allowed L S.node := by
        change OwnState L S.node.sched.current S.node.state.cpu
        rw [h.refines.cpu_eq]
        exact h.refines.own _ h.refines.inv.current_live
      obtain ⟨n₀, hexec₀, href₀⟩ := h.refines.step (T := T) hev₀
      have hsched₀ : n₀.sched = S.node.sched := by
        obtain rfl := Option.some.inj hexec₀
        rfl
      have hev₁ : (Event.start name).Allowed L n₀ := by
        change n₀.sched.current = 0
        rw [hsched₀, hcur]
      obtain ⟨n₁, hexec₁, href₁⟩ := href₀.step (T := T) hev₁
      have hmem : ∀ x, ProcLayout.InUser x →
          n₁.state.mem x = if InRegion k x then image x else S.node.state.mem x := by
        intro x hx
        rw [href₀.exec_userMem hev₁ (by simp) hexec₁ hx, own_mem hexec₀ hx, overwrite, ite_not]
      obtain ⟨p₀, hp₀⟩ : ∃ p₀, p₀ = p.exec (.own S.node.state.cpu
        (overwrite (fun x => ¬ InRegion k x) S.node.state.mem image)) := ⟨_, rfl⟩
      rw [← hp₀] at href₀ href₁
      have hstates₀ : p₀.states = p.states := by rw [hp₀, Procs.exec]
      have hcons₀ : p₀.console = p.console := by rw [hp₀, Procs.exec]
      have hfree : p₀.freeSlot = some k := by
        rw [Procs.freeSlot, href₀.states_eq, hsched₀]
        exact hslot
      rw [Procs.exec_start hfree] at href₁
      refine ⟨⟨n₁, Function.update S.mark k n₁.console.length, Function.update S.killed k false⟩, ?_, _, href₁,
        fun pid h0 hlt hused => ?_⟩
      · simp only [Session.exec, hslot, Option.elim_some, Session.launch, hexec₀, Option.bind_eq_bind,
          Option.bind_some, hexec₁, Option.pure_def]
      by_cases hk : pid = k
      · subst hk
        have hregion : ∀ x, InRegion pid x → n₁.state.mem x = image x := fun x hx => by
          rw [hmem x (inUser_of_inRegion hlt hx), if_pos hx]
        have htop : userStackTop pid ≤ userCodeVa pid + procStride := (userWindow pid).le_high
        refine ⟨n₁.state.mem, [], User.initial pid n₁.state.mem, ?_, .refl _, ?_, ?_, fun _ => ⟨rfl, ?_⟩, ?_⟩
        · exact UserImage.Loaded.congr (hload pid hslot) fun x hx hx' => hregion x ⟨hx, by omega⟩
        · simp [Session.output, printed]
        · rw [href₁.console_eq]
          simp
        · refine ⟨?_, fun _ _ _ => rfl⟩
          simp [User.initial]
        · simp
      · have hcpus₀ : p₀.cpus pid = p.cpus pid := by
          rw [hp₀]
          refine Function.update_of_ne ?_ _ _
          rwa [h.refines.current_eq, hcur]
        have huntouched : p.Untouched { p₀ with
            cpus := Function.update p₀.cpus k (initialCpu k)
            states := Function.update p₀.states k .ready } pid :=
          .of_eq ((Function.update_of_ne hk _ _).trans hcpus₀)
            ((Function.update_of_ne hk _ _).trans (congrFun hstates₀ pid)) hcons₀
        obtain ⟨m, es, u, hat⟩ := h.at_some pid h0 hlt (mt huntouched.unused.2 hused)
        refine ⟨m, es, u, hat.untouched huntouched h.refines.console_eq.symm href₁.console_eq.symm
          (Function.update_of_ne hk _ _) (Function.update_of_ne hk _ _) fun x hx => ?_⟩
        exact (hmem x (inUser_of_inRegion hlt hx)).trans (if_neg (not_inRegion_of_ne hk hx))

/-- The process on the processor has gone on to `u'`; the others have not noticed. -/
theorem advance (h : Good L U S p) {n : Node} {s : State} {m : ByteMem} {es es' : List Sys} {u u' : User}
    (hat : At U S p p.current m es u)
    (hstep : User.step (U p.current).program p.current u = some (u', es'))
    (hframed : Framed (userWindow p.current) S.node.state s) (href : Refines L n p')
    (hothers : ∀ pid, pid ≠ p.current → p.Untouched p' pid)
    (hmem : ∀ x, ProcLayout.InUser x → n.state.mem x = s.mem x)
    (hnew : p'.console = p.console ++ (printed es').map fun b => (p.current, b))
    (hsame : Same (userWindow p.current) u'.state ⟨u'.state.cpu, s.mem⟩)
    (hexit : u'.exited = true → p'.states p.current = .zombie)
    (halive : u'.exited = false → p'.states p.current ≠ .zombie ∧ p'.cpus p.current = u'.state.cpu) :
    Good L U { S with node := n } p' := by
  refine ⟨href, fun pid h0 hlt hused => ?_⟩
  by_cases hpid : pid = p.current
  · rw [hpid]
    refine ⟨m, es ++ es', u', hat.advance hstep h.refines.console_eq.symm href.console_eq.symm hnew rfl hexit
      fun hu => ⟨(halive hu).1, (halive hu).2.symm, fun x hx hx' => ?_⟩⟩
    rw [hsame.mem x hx hx']
    exact (hmem x (inUser_of_inRegion h.current_lt ⟨hx, hx'⟩)).symm
  · obtain ⟨m', es₀, u₀, hat'⟩ := h.at_some pid h0 hlt (mt (hothers pid hpid).unused.2 hused)
    refine ⟨m', es₀, u₀, hat'.untouched (hothers pid hpid) h.refines.console_eq.symm href.console_eq.symm rfl rfl
      fun x hx => ?_⟩
    exact (hmem x (inUser_of_inRegion hlt hx)).trans (hframed.mem x (not_writable_of_inRegion hpid hx))

/-- **The process on the processor executes an instruction.** It does not fault, and goes one step further in
its program. -/
theorem user_move (h : Good L U S p) (hcur : S.node.sched.current ≠ 0) (left : Leftovers) :
    ∃ n, S.node.userStep L T U left = some n ∧ ∃ p', Good L U { S with node := n } p' := by
  have hcur' : p.current = S.node.sched.current := h.refines.current_eq
  have h0 : p.current ≠ 0 := by rwa [hcur']
  obtain ⟨hunused, hzombie⟩ := h.current_used
  obtain ⟨m, es, u, hat⟩ := h.at_some p.current h0 h.current_lt hunused
  obtain ⟨hu, hsame⟩ := hat.alive hzombie
  have hnode : (⟨p.cpus p.current, S.node.state.mem⟩ : State) = S.node.state := by
    rw [hcur', ← h.refines.cpu_eq]
  rw [hnode] at hsame
  -- the program goes on, and so does the processor
  obtain ⟨-, -, -, hsome⟩ := (U p.current).exec_rest h.current_lt hat.loaded hat.exec
  obtain ⟨⟨u', es'⟩, hstep⟩ := Option.isSome_iff_exists.1 (hsome hu)
  obtain ⟨s, out, hs, hcases⟩ := User.step_some hstep
  obtain ⟨s', hs', hsame'⟩ := Program.step_same hsame hs
  have hframed := Program.step_framed hs'
  have hev : (Event.own s'.cpu s'.mem).Allowed L S.node := by
    have hown := h.refines.own _ h.refines.inv.current_live
    rw [← h.refines.cpu_eq] at hown
    change OwnState L S.node.sched.current s'.cpu
    rw [OwnState, if_neg hcur] at hown ⊢
    rwa [hframed.cs, hframed.interruptFlag]
  obtain ⟨n₁, hexec₁, href₁⟩ := h.refines.step (T := T) hev
  have hmem₁ : ∀ x, ProcLayout.InUser x → n₁.state.mem x = s'.mem x := fun x hx => own_mem hexec₁ hx
  obtain ⟨p₁, hp₁⟩ : ∃ p₁, p₁ = p.exec (.own s'.cpu s'.mem) := ⟨_, rfl⟩
  rw [← hp₁] at href₁
  have hcur₁ : p₁.current = p.current := by rw [hp₁, Procs.exec]
  have hcons₁ : p₁.console = p.console := by rw [hp₁, Procs.exec]
  have hcpu₁ : p₁.cpus p.current = s.cpu := by
    rw [hp₁, hsame'.cpu]
    exact Function.update_self _ _ _
  have hothers₁ : ∀ pid, pid ≠ p.current → p.Untouched p₁ pid := fun pid hpid => by
    rw [hp₁]
    exact .of_eq (Function.update_of_ne hpid _ _) rfl rfl
  rcases hcases with ⟨rfl, rfl, rfl⟩ | ⟨rfl, hsys⟩
  · refine ⟨n₁, ?_, p₁, h.advance hat hstep hframed href₁ hothers₁ hmem₁ ?_ ⟨rfl, hsame'.mem⟩ ?_ ?_⟩
    · rw [hcur'] at hs'
      simp only [Node.userStep, hs', hexec₁, Option.bind_eq_bind, Option.bind_some, Option.pure_def]
    · rw [hcons₁]
      exact (List.append_nil _).symm
    · simp
    · intro _
      refine ⟨?_, hcpu₁⟩
      rw [hp₁]
      exact hzombie
  · have hev₂ : (Event.syscall left).Allowed L n₁ := by
      obtain rfl := Option.some.inj hexec₁
      exact hcur
    obtain ⟨n₂, hexec₂, href₂⟩ := href₁.step (T := T) hev₂
    rw [← hcur₁] at hsys
    obtain ⟨hcons, hmem, hexit, halive⟩ := syscall_user href₁ (by rwa [hcur₁]) (by rw [hcur₁, hcpu₁]) hsys
    rw [hcur₁] at hcons hexit halive
    refine ⟨n₂, ?_, p₁.syscall, h.advance hat hstep hframed href₂ (fun pid hpid => ?_) (fun x hx => ?_) ?_
      ⟨rfl, ?_⟩ hexit halive⟩
    · rw [hcur'] at hs'
      simp only [Node.userStep, hs', hexec₁, Option.bind_eq_bind, Option.bind_some, hexec₂, if_pos]
    · refine (hothers₁ pid hpid).trans (Procs.untouched_syscall ?_ ?_)
      · rw [hcur₁]
        exact h.current_lt
      · rwa [hcur₁]
    · rw [href₁.exec_userMem hev₂ (by simp) hexec₂ hx, hmem₁ x hx]
    · rw [hcons, hcons₁]
    · rw [hmem]
      exact hsame'.mem

/-- **The step.** -/
theorem move (h : Good L U S p) {mv : Move} (hmv : mv.Allowed L U S) :
    ∃ S', S.exec L T U mv = some S' ∧ ∃ p', Good L U S' p' := by
  cases mv with
  | user left =>
      obtain ⟨n, hn, hgood⟩ := h.user_move (T := T) hmv left
      exact ⟨_, by rw [Session.exec, hn, Option.map_some], hgood⟩
  | shell cpu mem =>
      obtain ⟨n, hn, hgood⟩ := @shell_move L T U S p h cpu mem hmv.1 hmv.2
      exact ⟨_, by rw [Session.exec, hn, Option.map_some], hgood⟩
  | irq line code left =>
      obtain ⟨n, hn, hgood⟩ := @kernel_move L T U S p h (.irq line code left) hmv (by simp)
        fun pid _ => h.untouched_irq line code left pid
      exact ⟨_, by rw [Session.exec, hn, Option.map_some], _, hgood⟩
  | start name image => exact h.start_move hmv.1 hmv.2
  | kill k => exact h.kill_move hmv
  | poll =>
      obtain ⟨n, hn, hgood⟩ := @kernel_move L T U S p h .poll hmv (by simp) fun pid _ => .of_eq rfl rfl rfl
      exact ⟨_, by rw [Session.exec, hn, Option.map_some], _, hgood⟩

end Good

/-- The session when the shell starts. -/
def Session.boot (L : ProcLayout) (s : State) (kb : Keyboard) (ticks rsp0 : Nat) : Session :=
  ⟨Node.boot L s kb ticks rsp0, fun _ => 0, fun _ => false⟩

theorem Good.boot {L : ProcLayout} {U : ∀ pid, UserImage pid} {s : State} (kb : Keyboard) (ticks rsp0 : Nat)
    (hs : OwnState L 0 s.cpu) :
    Good L U (Session.boot L s kb ticks rsp0) (Procs.boot s.cpu kb ticks) := by
  refine ⟨Refines.boot kb ticks rsp0 hs, fun pid h0 _ hused => absurd ?_ hused⟩
  simp [Procs.boot, h0]

/-- What the program is written to print. -/
def expectedOutput (pid : Nat) : List UInt8 := printed (expectedTrace pid)

theorem At.output_prefix {U : ∀ pid, UserImage pid} {S : Session} {p : Procs} {pid : Nat} {m : ByteMem}
    {es : List Sys} {u : User} (h : At U S p pid m es u) (hpid : pid < maxProcesses) :
    S.output pid <+: expectedOutput pid ∧ (u.exited = true → S.output pid = expectedOutput pid) := by
  obtain ⟨rest, hrest, hnil, -⟩ := (U pid).exec_rest hpid h.loaded h.exec
  rw [h.output, expectedOutput, hrest]
  refine ⟨?_, fun hu => ?_⟩
  · rw [printed, printed, List.filterMap_append]
    exact List.prefix_append _ _
  · rw [hnil hu, List.append_nil]

/-- **Every process prints its text.** Start `user_prog.s` in any slots, at any time, and let anything happen in
any order: instructions, interrupts between any two of them, keys, processes being started and killed.
Then what a process has printed since it was started is a beginning of its text, and if it is gone and was not
killed, the whole text. Nothing that may happen next fails: the process on the processor does not fault, and the
kernel does not panic. -/
theorem userProg_output (L : ProcLayout) (T : Text) (U : ∀ pid, UserImage pid) {s : State} (kb : Keyboard)
    (ticks rsp0 : Nat) (hs : OwnState L 0 s.cpu) {S : Session}
    (hrun : Relation.ReflTransGen (Runs.Step (fun S mv => mv.Allowed L U S) (Session.exec L T U))
      (Session.boot L s kb ticks rsp0) S) :
    (∀ pid, pid ≠ 0 → pid < maxProcesses → S.node.sched.stateOf pid ≠ .unused →
      S.output pid <+: expectedOutput pid ∧
      (S.node.sched.stateOf pid = .zombie → S.killed pid = false → S.output pid = expectedOutput pid)) ∧
    ∀ mv : Move, mv.Allowed L U S → (S.exec L T U mv).isSome := by
  obtain ⟨p, hgood⟩ : ∃ p, Good L U S p := by
    refine Runs.invariant (P := fun S => ∃ p, Good L U S p) (fun S mv S' hS hmv hexec => ?_)
      ⟨_, Good.boot kb ticks rsp0 hs⟩ hrun
    obtain ⟨p, hp⟩ := hS
    obtain ⟨S₁, hS₁, hgood⟩ := hp.move (T := T) hmv
    obtain rfl := Option.some.inj (hS₁.symm.trans hexec)
    exact hgood
  refine ⟨fun pid h0 hlt hused => ?_, fun mv hmv => ?_⟩
  · rw [← hgood.refines.states_eq] at hused ⊢
    obtain ⟨m, es, u, hat⟩ := hgood.at_some pid h0 hlt hused
    obtain ⟨hpre, hall⟩ := hat.output_prefix hlt
    exact ⟨hpre, fun hz hk => hall (hat.gone hz hk)⟩
  · obtain ⟨S', hS', -⟩ := hgood.move (T := T) hmv
    rw [hS']
    rfl

/-- The strings of the first process. -/
def sampleStrings : ByteMem :=
  ByteMem.copy (ByteMem.copy (fun _ => 0) (userCodeVa 1 + 256) bannerText) (userCodeVa 1 + 512) aliveText

/-- The shell starts a process. -/
theorem userProg_output_small :
    ∃ S, Session.exec sampleLayout sampleText sampleImage
        (Session.boot sampleLayout sampleShell Keyboard.initial 100 0) (.start [112] sampleStrings) = some S ∧
      S.node.sched.stateOf 1 = .ready ∧ S.output 1 <+: expectedOutput 1 := by
  have hload : (sampleImage 1).Loaded sampleStrings := by
    refine ⟨fun i hi => ?_, fun i hi => ?_⟩
    · have hi' : i < 5 := hi
      change bannerText[i]? = some (sampleStrings (userCodeVa 1 + 256 + i))
      rw [sampleStrings, ByteMem.copy_of_not_mem (by omega), ByteMem.copy_add hi]
      interval_cases i <;> rfl
    · have hi' : i < 8 := hi
      change aliveText[i]? = some (sampleStrings (userCodeVa 1 + 512 + i))
      rw [sampleStrings, ByteMem.copy_add hi]
      interval_cases i <;> rfl
  have hmv : (Move.start [112] sampleStrings).Allowed sampleLayout sampleImage
      (Session.boot sampleLayout sampleShell Keyboard.initial 100 0) :=
    ⟨rfl, fun pid hpid => Option.some.inj hpid ▸ hload⟩
  refine ⟨_, rfl, rfl, ?_⟩
  exact ((userProg_output sampleLayout sampleText sampleImage Keyboard.initial 100 0 (by decide)
    (.single ⟨_, hmv, rfl⟩)).1 1 (by decide) (by decide) (by decide)).1

end Rolnix
