import Rolnix.Serial
import Rolnix.SchedProof

/-!
# The shell

The line editor and the commands of `shell.rs`, as the terminal and the process table see them. Input is
one sequence of bytes, from the keyboard and the serial line in the order in which `run` finds them.

**Theorem (`shell_shows`).** After any input the row of the terminal reads `rolnix> ` and the line that Enter
would execute, with the cursor behind it: what is seen is what is executed.

**Theorem (`kill_from_ps`).** A pid that `ps` lists, typed after `kill`, ends that process and changes nothing
else.

The processes print on the same line. Nothing is said about a terminal that shows their output as well: what
they print between two keys stands wherever the cursor is.
-/

namespace Rolnix

open Terminal (Printable)

/-! ## The line editor -/

def maxLine : Nat := 127

def prompt : List UInt8 := ascii "rolnix> "

/-- Feed one character into the line. Gives the line, what is echoed, and whether the line is complete. -/
def editLine (line : List UInt8) (c : UInt8) : List UInt8 × List UInt8 × Bool :=
  if c = 10 ∨ c = 13 then (line, writeStr [13, 10], true)
  else if c = 8 ∨ c = 127 then
    if line = [] then (line, [], false) else (line.dropLast, writeStr [8, 32, 8], false)
  else if (33 ≤ c ∧ c ≤ 126) ∨ c = 32 then
    if line.length < maxLine then (line ++ [c], writeStr [c], false) else (line, [], false)
  else (line, [], false)

/-! ## Commands -/

/-- `str::parse::<u32>` from the first digit on. -/
def parseDigits (acc : Nat) : List UInt8 → Option Nat
  | [] => some acc
  | d :: ds =>
      if 48 ≤ d ∧ d ≤ 57 then
        let acc := acc * 10 + (d.toNat - 48)
        if acc < 2 ^ 32 then parseDigits acc ds else none
      else none

/-- `str::parse::<u32>`: a sign is allowed, but not by itself. -/
def parseU32 (s : List UInt8) : Option Nat :=
  match s with
  | [] => none
  | [d] => parseDigits 0 [d]
  | d :: ds => if d = 43 then parseDigits 0 ds else parseDigits 0 (d :: ds)

/-- `split_whitespace`; a line has no other white space than blanks. -/
def words (line : List UInt8) : List (List UInt8) := (line.splitOn 32).filter fun w => !w.isEmpty

structure ProcDesc where
  pid : Nat
  running : Bool
  name : List UInt8

/-- The entry of a slot. -/
def Sched.desc (st : Sched) (i : Nat) : ProcDesc :=
  ⟨(st.processes i).pid, st.stateOf i = .running, (st.processes i).name⟩

/-- One entry per live process. -/
def Sched.snapshot (st : Sched) : List ProcDesc :=
  ((List.range maxProcesses).filter fun i => st.stateOf i ≠ .unused ∧ st.stateOf i ≠ .zombie).map st.desc

/-- The name up to the zeros behind it. -/
def trimZeros (name : List UInt8) : List UInt8 := (name.reverse.dropWhile (· = 0)).reverse

/-- A line of `ps`. -/
def ProcDesc.text (d : ProcDesc) : List UInt8 :=
  ascii "  pid " ++ decimal d.pid ++ ascii "  " ++ ascii (if d.running then "running " else "ready   ") ++
    ascii " " ++ trimZeros d.name

/-- What the commands look at. -/
structure Console where
  sched : Sched
  /-- `TICKS`. -/
  ticks : Nat
  freeFrames : Nat
  heapAllocated : Nat
  heapTotal : Nat

/-- The lines of `ps`. -/
def Console.ps (k : Console) : List (List UInt8) :=
  let ds := k.sched.snapshot
  (decimal ds.length ++ ascii " process(es):") :: ds.map ProcDesc.text

/-- Execute one completed line: the lines it prints, and the state; `none` if the machine stops. `spawn` is
`spawn_process` without its message, which may panic. -/
def execute (spawn : Console → List UInt8 → Option (Option Nat × Console)) (k : Console)
    (line : List UInt8) : List (List UInt8) × Option Console :=
  match words line with
  | [] => ([], some k)
  | cmd :: args =>
      let rest := List.intercalate [32] args
      if cmd = ascii "help" then
        ([ascii "commands: help, echo <text>, info, ticks, spawn [name], ps, kill <pid>, fault, double, halt"],
          some k)
      else if cmd = ascii "echo" then ([rest], some k)
      else if cmd = ascii "info" then
        ([ascii "frames free: " ++ decimal k.freeFrames ++ ascii "   heap: " ++ decimal k.heapAllocated ++
          ascii "/" ++ decimal k.heapTotal], some k)
      else if cmd = ascii "ticks" then ([ascii "ticks = " ++ decimal k.ticks], some k)
      else if cmd = ascii "spawn" then
        let name := if rest = [] then ascii "proc" else rest
        match spawn k name with
        | some (some pid, k) =>
            ([ascii "spawned pid " ++ decimal pid ++ ascii " ('" ++ name ++ ascii "') at " ++
                hex (userCodeVa pid) ++ ascii ", stack " ++ hex (userStackTop pid - 4096),
              ascii "started pid " ++ decimal pid ++ ascii " ('" ++ name ++ ascii "')"], some k)
        | some (none, k) => ([ascii "spawn failed: no free slot or out of memory"], some k)
        | none => ([], none)
      else if cmd = ascii "ps" then (k.ps, some k)
      else if cmd = ascii "kill" then
        if rest = [] then ([ascii "usage: kill <pid>"], some k)
        else
          match parseU32 rest with
          | none => ([ascii "kill: pid must be a number"], some k)
          | some pid =>
              let r := k.sched.kill pid
              ([if r.1 then ascii "pid " ++ decimal pid ++ ascii " killed"
                else ascii "kill " ++ decimal pid ++ ascii ": not a live process"],
                some { k with sched := r.2 })
      else if cmd = ascii "fault" then
        ([ascii "exception demo: writing to unmapped VA 0xFFFF_9000_1000_0000"], none)
      else if cmd = ascii "double" then
        ([ascii "double fault demo: clobbering RSP to an unmapped VA, then ud2"], none)
      else if cmd = ascii "halt" ∨ cmd = ascii "exit" ∨ cmd = ascii "shutdown" then ([], none)
      else ([ascii "unknown command '" ++ cmd ++ ascii "' (type 'help')"], some k)

/-! ## The loop -/

/-- The shell: the line so far, and the rest. -/
structure Shell where
  line : List UInt8
  console : Console

variable (spawn : Console → List UInt8 → Option (Option Nat × Console))

/-- One byte of input: what is printed, and the shell that goes on, if any. -/
def Shell.step (s : Shell) (c : UInt8) : List UInt8 × Option Shell :=
  let e := editLine s.line c
  if e.2.2 then
    let r := execute spawn s.console e.1
    (e.2.1 ++ r.1.flatMap kprintLine ++ (if r.2.isSome then writeStr prompt else []),
      r.2.map fun k => ⟨[], k⟩)
  else (e.2.1, some { s with line := e.1 })

/-- All input so far. -/
def Shell.run (s : Shell) : List UInt8 → List UInt8 × Option Shell
  | [] => ([], some s)
  | c :: cs =>
      let (out, s') := s.step spawn c
      match s' with
      | none => (out, none)
      | some s' => (out ++ (s'.run cs).1, (s'.run cs).2)

/-! ## What the terminal shows -/

theorem shows_lines {t : Terminal} (ht : t.Shows []) (lines : List (List UInt8)) :
    (t.feed (lines.flatMap kprintLine)).Shows [] := by
  induction lines generalizing t with
  | nil => exact ht
  | cons s lines ih =>
      rw [List.flatMap_cons, Terminal.feed_append]
      exact ih (shows_kprintLine (Nat.zero_lt_of_lt ht.fits) s)

/-- The line is one the editor can hold. -/
structure Editable (line : List UInt8) : Prop where
  length_le : line.length ≤ maxLine
  printable : ∀ c ∈ line, Printable c

theorem editable_nil : Editable [] := ⟨Nat.zero_le _, by simp⟩

theorem printable_prompt : ∀ b ∈ prompt, Printable b := Terminal.printable_of_all (by decide)

theorem writeStr_prompt : writeStr prompt = prompt := writeStr_of_notMem (by decide)

theorem editLine_done {line : List UInt8} {c : UInt8} (hdone : (editLine line c).2.2 = true) :
    (editLine line c).1 = line ∧ (editLine line c).2.1 = writeStr [13, 10] := by
  rw [editLine] at hdone ⊢
  split_ifs at hdone ⊢
  exact ⟨rfl, rfl⟩

theorem editLine_char {line : List UInt8} {c : UInt8} (hc : Printable c) (hlen : line.length < maxLine) :
    editLine line c = (line ++ [c], [c], false) := by
  have henter : ¬(c = 10 ∨ c = 13) := by
    rintro (rfl | rfl) <;> exact absurd hc (by decide)
  have herase : ¬(c = 8 ∨ c = 127) := by
    rintro (rfl | rfl) <;> exact absurd hc (by decide)
  have hchar : (33 ≤ c ∧ c ≤ 126) ∨ c = 32 := by
    obtain ⟨h32, h126⟩ := hc
    rw [UInt8.le_iff_toNat_le] at h32 h126
    rw [UInt8.le_iff_toNat_le, UInt8.le_iff_toNat_le, ← UInt8.toNat_inj]
    simp only [UInt8.toNat_ofNat] at *
    omega
  rw [editLine, if_neg henter, if_neg herase, if_pos hchar, if_pos hlen,
    writeStr_of_notMem (by rw [List.mem_singleton]; exact fun h => henter (.inl h.symm))]

/-- **One character of a line** changes the row as it changes the line. -/
theorem editLine_shows {line : List UInt8} {c : UInt8} {t : Terminal} (hline : Editable line)
    (hwidth : prompt.length + maxLine < t.width) (ht : t.Shows (prompt ++ line))
    (hmore : (editLine line c).2.2 = false) :
    (t.feed (editLine line c).2.1).Shows (prompt ++ (editLine line c).1) ∧ Editable (editLine line c).1 := by
  by_cases hchar : Printable c ∧ line.length < maxLine
  · rw [editLine_char hchar.1 hchar.2]
    refine ⟨?_, by simp; exact hchar.2, ?_⟩
    · rw [← List.append_assoc]
      refine ht.put hchar.1 ?_
      rw [List.length_append]
      omega
    · intro b hb
      rcases List.mem_append.1 hb with hb | hb
      · exact hline.printable b hb
      · rw [List.mem_singleton.1 hb]
        exact hchar.1
  rw [editLine] at hmore ⊢
  split_ifs at hmore ⊢ with henter herase hnil hc hlen
  · exact ⟨ht, hline⟩
  · -- a character of the line is taken back
    obtain ⟨l, b, rfl⟩ := (List.eq_nil_or_concat' line).resolve_left hnil
    rw [List.dropLast_concat]
    rw [← List.append_assoc] at ht
    exact ⟨ht.erase, Nat.le_of_succ_le (by simpa using hline.length_le),
      fun c hc => hline.printable c (List.mem_append_left _ hc)⟩
  · exfalso
    refine hchar ⟨?_, hlen⟩
    rcases hc with hc | rfl
    · exact ⟨UInt8.le_trans (by decide) hc.1, hc.2⟩
    · decide
  · exact ⟨ht, hline⟩
  · exact ⟨ht, hline⟩

theorem Shell.step_more {s : Shell} {c : UInt8} (hmore : (editLine s.line c).2.2 = false) :
    s.step spawn c = ((editLine s.line c).2.1, some { s with line := (editLine s.line c).1 }) := by
  rw [Shell.step, if_neg (by rw [hmore]; decide)]

theorem Shell.step_done {s : Shell} {c : UInt8} (hdone : (editLine s.line c).2.2 = true) :
    s.step spawn c =
      (writeStr [13, 10] ++ (execute spawn s.console s.line).1.flatMap kprintLine ++
        (if (execute spawn s.console s.line).2.isSome then writeStr prompt else []),
       (execute spawn s.console s.line).2.map fun k => ⟨[], k⟩) := by
  obtain ⟨hline, hecho⟩ := editLine_done hdone
  rw [Shell.step, if_pos hdone, hline, hecho]

/-- **One byte of input** leaves the prompt and the line on the row. -/
theorem Shell.step_shows {s s' : Shell} {c : UInt8} {out : List UInt8} {t : Terminal} (hline : Editable s.line)
    (hwidth : prompt.length + maxLine < t.width) (ht : t.Shows (prompt ++ s.line)) (hstep : s.step spawn c = (out, some s')) :
    (t.feed out).Shows (prompt ++ s'.line) ∧ Editable s'.line := by
  by_cases hdone : (editLine s.line c).2.2 = true
  · -- Enter: the echo ends the row, the command prints whole lines, and the next prompt follows
    rw [Shell.step_done spawn hdone, Prod.mk.injEq, Option.map_eq_some_iff] at hstep
    obtain ⟨hout, k, hk, rfl⟩ := hstep
    rw [hk, Option.isSome_some, if_pos rfl, writeStr_prompt] at hout
    refine ⟨?_, editable_nil⟩
    rw [← hout, Terminal.feed_append, Terminal.feed_append, List.append_nil]
    have hrow : (t.feed (writeStr [13, 10])).Shows [] := ⟨rfl, rfl, Nat.zero_lt_of_lt hwidth⟩
    refine (shows_lines hrow _).feed printable_prompt ?_
    rw [Terminal.width_feed, Terminal.width_feed, List.length_nil]
    omega
  · rw [Bool.not_eq_true] at hdone
    rw [Shell.step_more spawn hdone, Prod.mk.injEq, Option.some.injEq] at hstep
    obtain ⟨rfl, rfl⟩ := hstep
    exact editLine_shows hline hwidth ht hdone

theorem Shell.run_shows {s s' : Shell} {input : List UInt8} {t : Terminal} (hline : Editable s.line)
    (hwidth : prompt.length + maxLine < t.width) (ht : t.Shows (prompt ++ s.line)) (hrun : (s.run spawn input).2 = some s') :
    (t.feed (s.run spawn input).1).Shows (prompt ++ s'.line) ∧ Editable s'.line := by
  induction input generalizing s t with
  | nil =>
      rw [Shell.run, Option.some.injEq] at hrun
      rw [← hrun]
      exact ⟨ht, hline⟩
  | cons c cs ih =>
      rcases hstep : s.step spawn c with ⟨out, _ | s₁⟩
      · rw [Shell.run, hstep] at hrun
        cases hrun
      · have hnext := s.step_shows spawn hline hwidth ht hstep
        rw [Shell.run, hstep] at hrun ⊢
        rw [Terminal.feed_append]
        exact ih hnext.2 (by rwa [Terminal.width_feed]) hnext.1 hrun

/-- **What is seen is what is executed,** on a terminal whose rows have room for the longest line. -/
theorem shell_shows {k : Console} {s : Shell} {input : List UInt8} {t : Terminal}
    (hwidth : prompt.length + maxLine < t.width) (ht : t.Shows [])
    (hrun : (Shell.run spawn ⟨[], k⟩ input).2 = some s) :
    (t.feed (writeStr prompt ++ (Shell.run spawn ⟨[], k⟩ input).1)).Shows (prompt ++ s.line) ∧
      s.line.length ≤ maxLine := by
  rw [writeStr_prompt, Terminal.feed_append]
  have hprompt : (t.feed prompt).Shows (prompt ++ []) := by
    rw [List.append_nil]
    exact ht.feed printable_prompt (by rw [List.length_nil]; omega)
  obtain ⟨hshows, hline⟩ :=
    Shell.run_shows spawn editable_nil (by rwa [Terminal.width_feed]) hprompt hrun
  exact ⟨hshows, hline.length_le⟩

/-- `ps` with a slip that is taken back, Enter, and one more key. -/
theorem shell_shows_small :
    ((Terminal.mk 136 Terminal.blank 0).feed (writeStr prompt ++ (Shell.run (fun k _ => some (none, k))
      ⟨[], ⟨Sched.shellOnly, 0, 0, 0, 0⟩⟩ [112, 120, 127, 115, 13, 104]).1)).Shows (prompt ++ ascii "h") := by
  have hrun : (Shell.run (fun k _ => some (none, k)) ⟨[], ⟨Sched.shellOnly, 0, 0, 0, 0⟩⟩ [112, 120, 127, 115, 13, 104]).2 =
      some ⟨ascii "h", ⟨Sched.shellOnly, 0, 0, 0, 0⟩⟩ := rfl
  have hblank : (Terminal.mk 136 Terminal.blank 0).Shows [] := ⟨rfl, rfl, by decide⟩
  exact (shell_shows _ (by decide) hblank hrun).1

/-! ## Killing what `ps` lists -/

theorem toUInt8_digitChar {d : Nat} (hd : d < 10) : (Nat.digitChar d).toUInt8.toNat = d + 48 := by
  revert d
  decide

theorem decimal_of_lt {n : Nat} (h : n < 10) : decimal n = [(Nat.digitChar n).toUInt8] := by
  rw [decimal, Nat.toDigits_of_lt_base h, List.map_singleton]

theorem decimal_of_le {n : Nat} (h : 10 ≤ n) :
    decimal n = decimal (n / 10) ++ [(Nat.digitChar (n % 10)).toUInt8] := by
  rw [decimal, Nat.toDigits_of_base_le (by omega) h, List.map_append, List.map_singleton, decimal]

theorem digit_of_mem_decimal {n : Nat} {b : UInt8} (hb : b ∈ decimal n) : 48 ≤ b ∧ b ≤ 57 := by
  have hdigit {d : Nat} (hd : d < 10) : 48 ≤ (Nat.digitChar d).toUInt8 ∧ (Nat.digitChar d).toUInt8 ≤ 57 := by
    revert d
    decide
  induction n using Nat.strongRecOn with
  | ind n ih =>
      by_cases hn : n < 10
      · rw [decimal_of_lt hn, List.mem_singleton] at hb
        exact hb ▸ hdigit hn
      · rw [decimal_of_le (by omega), List.mem_append, List.mem_singleton] at hb
        rcases hb with hb | hb
        · exact ih (n / 10) (by omega) hb
        · exact hb ▸ hdigit (by omega)

theorem parseDigits_append (acc : Nat) (ds es : List UInt8) :
    parseDigits acc (ds ++ es) = (parseDigits acc ds).bind fun acc => parseDigits acc es := by
  induction ds generalizing acc with
  | nil => rfl
  | cons d ds ih =>
      rw [List.cons_append, parseDigits, parseDigits]
      dsimp only
      split_ifs
      · exact ih _
      · rfl
      · rfl

theorem parseDigits_digit {acc d : Nat} (hd : d < 10) (h : acc * 10 + d < 2 ^ 32) :
    parseDigits acc [(Nat.digitChar d).toUInt8] = some (acc * 10 + d) := by
  have hdigit : 48 ≤ (Nat.digitChar d).toUInt8 ∧ (Nat.digitChar d).toUInt8 ≤ 57 :=
    @digit_of_mem_decimal d _ (by rw [decimal_of_lt hd]; exact List.mem_singleton_self _)
  rw [parseDigits, if_pos hdigit, toUInt8_digitChar hd, Nat.add_sub_cancel, if_pos h, parseDigits]

/-- **Numbers are read back.** -/
theorem parseDigits_decimal {n : Nat} (hn : n < 2 ^ 32) : parseDigits 0 (decimal n) = some n := by
  induction n using Nat.strongRecOn with
  | ind n ih =>
      by_cases h : n < 10
      · rw [decimal_of_lt h, parseDigits_digit h (by omega)]
        congr 1
        omega
      · rw [decimal_of_le (by omega), parseDigits_append, ih (n / 10) (by omega) (by omega), Option.bind_some,
          parseDigits_digit (by omega) (by omega)]
        congr 1
        omega

theorem decimal_ne_nil (n : Nat) : decimal n ≠ [] := by
  rw [decimal, Ne, List.map_eq_nil_iff, ← List.length_eq_zero_iff]
  exact Nat.ne_of_gt Nat.length_toDigits_pos

theorem parseU32_decimal {n : Nat} (hn : n < 2 ^ 32) : parseU32 (decimal n) = some n := by
  rw [← parseDigits_decimal hn]
  have hsign : ∀ d ∈ decimal n, d ≠ 43 := by
    rintro d hd rfl
    exact absurd (digit_of_mem_decimal hd) (by decide)
  have hne := decimal_ne_nil n
  cases hdec : decimal n with
  | nil => exact absurd hdec hne
  | cons d ds =>
      cases ds with
      | nil => rfl
      | cons e es => exact if_neg (hsign d (hdec ▸ List.mem_cons_self))

theorem words_kill (n : Nat) : words (ascii "kill " ++ decimal n) = [ascii "kill", decimal n] := by
  have hdec : (32 : UInt8) ∉ decimal n := fun h => absurd (digit_of_mem_decimal h) (by decide)
  have hline : ascii "kill " ++ decimal n = List.intercalate [32] [ascii "kill", decimal n] := by
    rw [List.intercalate_cons_cons, List.intercalate_singleton]
    rfl
  have hsplit : (ascii "kill " ++ decimal n).splitOn 32 = [ascii "kill", decimal n] := by
    rw [hline]
    refine List.splitOn_intercalate _ ?_ (List.cons_ne_nil _ _)
    intro w hw
    rcases List.mem_pair.1 hw with rfl | rfl
    · decide
    · exact hdec
  rw [words, hsplit, List.filter_cons_of_pos (by decide), List.filter_cons_of_pos, List.filter_nil]
  rw [Bool.not_eq_true', List.isEmpty_eq_false_iff]
  exact decimal_ne_nil n

theorem execute_kill (k : Console) {n : Nat} (hn : n < 2 ^ 32) :
    execute spawn k (ascii "kill " ++ decimal n) =
      ([if (k.sched.kill n).1 then ascii "pid " ++ decimal n ++ ascii " killed"
        else ascii "kill " ++ decimal n ++ ascii ": not a live process"],
       some { k with sched := (k.sched.kill n).2 }) := by
  rw [execute, words_kill]
  dsimp only
  rw [List.intercalate_singleton, if_neg (by decide), if_neg (by decide), if_neg (by decide), if_neg (by decide),
    if_neg (by decide), if_neg (by decide), if_pos rfl, if_neg (decimal_ne_nil n), parseU32_decimal hn]

theorem Shell.run_cons_some {s s' : Shell} {c : UInt8} {cs out : List UInt8}
    (hstep : s.step spawn c = (out, some s')) :
    s.run spawn (c :: cs) = (out ++ (s'.run spawn cs).1, (s'.run spawn cs).2) := by
  rw [Shell.run, hstep]

theorem Shell.run_singleton (s : Shell) (c : UInt8) : s.run spawn [c] = s.step spawn c := by
  rcases hstep : s.step spawn c with ⟨out, _ | s'⟩
  · rw [Shell.run, hstep]
  · rw [Shell.run_cons_some spawn hstep, Shell.run, List.append_nil]

theorem Shell.run_typed {s : Shell} {text : List UInt8} (htext : Editable (s.line ++ text)) :
    s.run spawn (text ++ [13]) =
      (text ++ (Shell.step spawn ⟨s.line ++ text, s.console⟩ 13).1,
        (Shell.step spawn ⟨s.line ++ text, s.console⟩ 13).2) := by
  induction text generalizing s with
  | nil =>
      rw [List.nil_append, Shell.run_singleton, List.append_nil]
      rfl
  | cons c text ih =>
      have hc : editLine s.line c = (s.line ++ [c], [c], false) := by
        refine editLine_char (htext.printable c (by simp)) ?_
        have := htext.length_le
        rw [List.length_append, List.length_cons] at this
        omega
      have hstep : s.step spawn c = ([c], some { s with line := s.line ++ [c] }) := by
        rw [Shell.step_more spawn (by rw [hc]), hc]
      rw [List.append_cons] at htext
      rw [List.cons_append, Shell.run_cons_some spawn hstep, ih htext, List.append_cons s.line c text]
      rfl

theorem Sched.mem_snapshot {st : Sched} {d : ProcDesc} :
    d ∈ st.snapshot ↔ ∃ i < maxProcesses, st.Live i ∧ st.desc i = d := by
  rw [Sched.snapshot, List.mem_map]
  simp only [List.mem_filter, List.mem_range, decide_eq_true_eq, and_assoc, Sched.Live]

/-- What `kill` accepts are the pids that `ps` lists, but for 0. -/
theorem Sched.kill_true_iff {st : Sched} (hinv : st.Inv) {pid : Nat} :
    (st.kill pid).1 = true ↔ pid ≠ 0 ∧ ∃ d ∈ st.snapshot, d.pid = pid := by
  have hlisted : (∃ d ∈ st.snapshot, d.pid = pid) ↔ pid < maxProcesses ∧ st.Live pid := by
    constructor
    · rintro ⟨d, hd, rfl⟩
      obtain ⟨i, hi, hlive, rfl⟩ := mem_snapshot.1 hd
      have hpid : (st.desc i).pid = i := hinv.pid_eq i hlive
      rw [hpid]
      exact ⟨hi, hlive⟩
    · rintro ⟨hi, hlive⟩
      exact ⟨st.desc pid, mem_snapshot.2 ⟨pid, hi, hlive, rfl⟩, hinv.pid_eq pid hlive⟩
  rw [hlisted, Sched.kill]
  split_ifs with hbad hdead
  · simp only [false_iff]
    rintro ⟨h0, hlt, -⟩
    omega
  · simp only [false_iff]
    rintro ⟨-, -, hun, hzo⟩
    exact hdead.elim hzo hun
  · rw [not_or] at hbad hdead
    exact iff_of_true rfl ⟨hbad.1, Nat.lt_of_not_le hbad.2, hdead.2, hdead.1⟩

theorem Sched.kill_of_true {st : Sched} {pid : Nat} (hk : (st.kill pid).1 = true) :
    (st.kill pid).2 = st.setState pid .zombie := by
  rw [Sched.kill] at hk ⊢
  split_ifs at hk ⊢
  rfl

theorem Sched.kill_of_false {st : Sched} {pid : Nat} (hk : (st.kill pid).1 = false) : (st.kill pid).2 = st := by
  rw [Sched.kill] at hk ⊢
  split_ifs at hk ⊢ <;> rfl

theorem Sched.desc_setState_of_ne {st : Sched} {pid i : Nat} {v : ProcState} (h : i ≠ pid) :
    (st.setState pid v).desc i = st.desc i := by
  have hproc : (st.setState pid v).processes i = st.processes i := Function.update_of_ne h _ _
  rw [desc, desc, stateOf, stateOf, hproc]

theorem Sched.snapshot_kill {st : Sched} (hinv : st.Inv) {pid : Nat} (hk : (st.kill pid).1 = true) :
    (st.kill pid).2.snapshot = st.snapshot.filter fun d => d.pid ≠ pid := by
  have hlive (i : Nat) : (st.setState pid .zombie).Live i ↔ i ≠ pid ∧ st.Live i := by
    rw [Sched.Live, Sched.Live, stateOf_setState]
    by_cases hi : i = pid
    · simp [hi]
    · simp [hi]
  rw [Sched.kill_of_true hk, Sched.snapshot, Sched.snapshot, List.filter_map, List.filter_filter]
  have hslots : (List.range maxProcesses).filter (fun i => (st.setState pid .zombie).stateOf i ≠ .unused ∧
        (st.setState pid .zombie).stateOf i ≠ .zombie) =
      (List.range maxProcesses).filter (fun i => ((fun d : ProcDesc => decide (d.pid ≠ pid)) ∘ st.desc) i &&
        decide (st.stateOf i ≠ .unused ∧ st.stateOf i ≠ .zombie)) := by
    refine List.filter_congr fun i _ => ?_
    rw [Function.comp_apply, ← Bool.decide_and, decide_eq_decide]
    refine (hlive i).trans (and_congr_left fun h => ?_)
    have hpid : (st.desc i).pid = i := hinv.pid_eq i h
    rw [hpid]
  rw [hslots]
  refine List.map_congr_left fun i hi => desc_setState_of_ne ?_
  obtain ⟨-, hi⟩ := List.mem_filter.1 hi
  rw [Function.comp_apply, ← Bool.decide_and, decide_eq_true_eq] at hi
  have hpid : (st.desc i).pid = i := hinv.pid_eq i hi.2
  rw [← hpid]
  exact hi.1

theorem editable_kill {n : Nat} (hn : n < 2 ^ 32) : Editable (ascii "kill " ++ decimal n) := by
  have hlen : (decimal n).length ≤ 10 := by
    rw [decimal, List.length_map, Nat.length_toDigits_le_iff (by decide) (by decide)]
    omega
  refine ⟨by rw [List.length_append]; exact Nat.le_trans (Nat.add_le_add_left hlen 5) (by decide), ?_⟩
  intro c hc
  rcases List.mem_append.1 hc with hc | hc
  · exact Terminal.printable_of_all (by decide) c hc
  · obtain ⟨h48, h57⟩ := digit_of_mem_decimal hc
    exact ⟨UInt8.le_trans (by decide) h48, UInt8.le_trans h57 (by decide)⟩

/-- `ps` lists a process that `kill` ends. -/
def Console.Killable (k : Console) (n : Nat) : Prop := n ≠ 0 ∧ ∃ d ∈ k.sched.snapshot, d.pid = n

theorem Console.killable_iff {k : Console} (hinv : k.sched.Inv) {n : Nat} :
    k.Killable n ↔ (k.sched.kill n).1 = true := (Sched.kill_true_iff hinv).symm

/-- **`kill` and `ps` agree.** The slot of the process becomes a zombie, nothing else changes, and the next
`ps` lists the others. -/
theorem kill_from_ps {k : Console} (hreach : k.sched.Reached) {n : Nat} (hn : n < 2 ^ 32) :
    (k.Killable n →
      Shell.run spawn ⟨[], k⟩ (ascii "kill " ++ decimal n ++ [13]) =
        (ascii "kill " ++ decimal n ++ (writeStr [13, 10] ++
          kprintLine (ascii "pid " ++ decimal n ++ ascii " killed") ++ writeStr prompt),
         some ⟨[], { k with sched := k.sched.setState n .zombie }⟩) ∧
      (k.sched.setState n .zombie).snapshot = k.sched.snapshot.filter fun d => d.pid ≠ n) ∧
    (¬ k.Killable n →
      Shell.run spawn ⟨[], k⟩ (ascii "kill " ++ decimal n ++ [13]) =
        (ascii "kill " ++ decimal n ++ (writeStr [13, 10] ++
          kprintLine (ascii "kill " ++ decimal n ++ ascii ": not a live process") ++ writeStr prompt),
         some ⟨[], k⟩)) := by
  have hinv := hreach.inv
  rw [Shell.run_typed spawn (editable_kill hn), List.nil_append, Shell.step_done spawn rfl,
    execute_kill spawn k hn, Console.killable_iff hinv]
  simp only [List.flatMap_singleton, Option.isSome_some, if_true, Option.map_some]
  refine ⟨fun hk => ⟨?_, ?_⟩, fun hk => ?_⟩
  · rw [if_pos hk, Sched.kill_of_true hk]
  · rw [← Sched.kill_of_true hk, Sched.snapshot_kill hinv hk]
  · rw [if_neg hk, Sched.kill_of_false (Bool.eq_false_iff.2 hk)]

/-- The shell has started process 1. -/
def oneStarted : Sched := (Sched.shellOnly.startProcess 1 (userCodeVa 1) [112]).getD Sched.shellOnly

theorem oneStarted_reached : oneStarted.Reached := by
  have hstart : (SchedOp.start (userCodeVa 1) [112]).exec Sched.shellOnly = some (oneStarted, none) := rfl
  have hctx : (SchedOp.start (userCodeVa 1) [112]).Allowed Sched.shellOnly := rfl
  exact ⟨0x400000, 0x500000, 0x500000, .single (.call hctx hstart)⟩

/-- Process 1 is killed, and only the shell is left. -/
theorem kill_from_ps_one :
    ∃ s, (Shell.run (fun k _ => some (none, k)) ⟨[], ⟨oneStarted, 0, 0, 0, 0⟩⟩
        (ascii "kill " ++ decimal 1 ++ [13])).2 = some s ∧ s.console.sched.snapshot.map ProcDesc.pid = [0] := by
  have hlisted : Console.Killable ⟨oneStarted, 0, 0, 0, 0⟩ 1 :=
    ⟨by decide, oneStarted.desc 1, List.mem_of_getElem? (i := 1) rfl, rfl⟩
  obtain ⟨hrun, hsnap⟩ := (@kill_from_ps (fun k _ => some (none, k)) ⟨oneStarted, 0, 0, 0, 0⟩
    oneStarted_reached 1 (by decide)).1 hlisted
  refine ⟨_, congrArg Prod.snd hrun, ?_⟩
  change (oneStarted.setState 1 .zombie).snapshot.map _ = _
  rw [hsnap]
  decide

end Rolnix
