import Mathlib.Data.List.Basic
import Mathlib.Tactic.SplitIfs

/-!
# Bringing up the keyboard

`keyboard::init` talks to the 8042 through two ports: it polls the status, sends commands and reads
answers. The controller and the keyboard are not known, so they are any function from what has been
read and written so far to the byte that a read returns. The function is a straight list of
instructions (`initScript`), each of which may give up.

The loop that empties the output buffer has no bound in the source. It gets fuel here, and an `init`
that uses it up is still running.

**Theorem (`keyboardInit_protocol`).** With any device `init` keeps to the protocol: it writes only after it has
seen the input buffer empty since the last write, and reads data only when the status has just said
that there is some. What it has written is at every time a beginning of one fixed dialogue, and all of
it if it succeeds. After that dialogue the keyboard sends the codes of set 1, untranslated, and
interrupts.
-/

namespace Rolnix

inductive PortAccess
  | read (port : Nat) (v : UInt8)
  | write (port : Nat) (v : UInt8)
  deriving DecidableEq

/-- What a read returns, from all that has happened. -/
abbrev Ps2Device : Type := List PortAccess → Nat → UInt8

def ps2Data : Nat := 0x60

/-- Status when read, commands when written. -/
def ps2Cmd : Nat := 0x64

def statusOutputFull : UInt8 := 0x01

def statusInputFull : UInt8 := 0x02

/-- How often a loop polls. -/
def pollLimit : Nat := 100000

section

variable (dev : Ps2Device)

/-- `wait_input_clear`, with the accesses so far. -/
def waitInputClear : Nat → List PortAccess → Bool × List PortAccess
  | 0, log => (false, log)
  | n + 1, log =>
      let v := dev log ps2Cmd
      let log := log ++ [.read ps2Cmd v]
      if v &&& statusInputFull = 0 then (true, log) else waitInputClear n log

/-- `read_byte`. -/
def readByte : Nat → List PortAccess → Option UInt8 × List PortAccess
  | 0, log => (none, log)
  | n + 1, log =>
      let v := dev log ps2Cmd
      let log := log ++ [.read ps2Cmd v]
      if v &&& statusOutputFull ≠ 0 then
        let b := dev log ps2Data
        (some b, log ++ [.read ps2Data b])
      else readByte n log

/-- The loop that empties the output buffer; `false` if the fuel is used up. -/
def flushOutput : Nat → List PortAccess → Bool × List PortAccess
  | 0, log => (false, log)
  | n + 1, log =>
      let v := dev log ps2Cmd
      let log := log ++ [.read ps2Cmd v]
      if v &&& statusOutputFull ≠ 0 then flushOutput n (log ++ [.read ps2Data (dev log ps2Data)])
      else (true, log)

end

/-- The statements of `init`. -/
inductive Ps2Instr
  /-- `if !wait_input_clear() { return false; }` -/
  | waitInputClear
  | outb (port : Nat) (v : UInt8)
  | flush
  /-- `if read_byte() != Some(v) { return false; }` -/
  | expect (v : UInt8)
  | readConfig
  | writeConfig
  /-- `let _bat = read_byte();` -/
  | readAny
  deriving DecidableEq

/-- The accesses so far, and `cfg`. -/
structure Ps2 where
  log : List PortAccess
  cfg : UInt8

inductive Ps2Result
  | ok | failed | running
  deriving DecidableEq

/-- The keyboard's interrupt on, translation off. -/
def newConfig (cfg : UInt8) : UInt8 := (cfg ||| 0x01) &&& ~~~0x40

def Ps2Instr.exec (dev : Ps2Device) (fuel : Nat) (s : Ps2) : Ps2Instr → Ps2Result × Ps2
  | waitInputClear =>
      let r := Rolnix.waitInputClear dev pollLimit s.log
      (if r.1 then .ok else .failed, { s with log := r.2 })
  | outb port v => (.ok, { s with log := s.log ++ [.write port v] })
  | flush =>
      let r := flushOutput dev fuel s.log
      (if r.1 then .ok else .running, { s with log := r.2 })
  | expect v =>
      let r := readByte dev pollLimit s.log
      (if r.1 = some v then .ok else .failed, { s with log := r.2 })
  | readConfig =>
      let r := readByte dev pollLimit s.log
      (if r.1.isSome then .ok else .failed, ⟨r.2, r.1.getD s.cfg⟩)
  | writeConfig => (.ok, { s with log := s.log ++ [.write ps2Data (newConfig s.cfg)] })
  | readAny => (.ok, { s with log := (readByte dev pollLimit s.log).2 })

def Ps2.run (dev : Ps2Device) (fuel : Nat) : List Ps2Instr → Ps2 → Ps2Result × Ps2
  | [], s => (.ok, s)
  | i :: is, s =>
      let r := i.exec dev fuel s
      if r.1 = .ok then Ps2.run dev fuel is r.2 else r

def initScript : List Ps2Instr :=
  [.waitInputClear, .outb ps2Cmd 0xAD, .waitInputClear, .flush,
   .outb ps2Cmd 0xAA, .expect 0x55,
   .waitInputClear, .outb ps2Cmd 0x20, .readConfig,
   .waitInputClear, .outb ps2Cmd 0x60, .waitInputClear, .writeConfig,
   .waitInputClear, .outb ps2Cmd 0xAE,
   .waitInputClear, .outb ps2Data 0xFF, .expect 0xFA, .readAny,
   .waitInputClear, .outb ps2Data 0xF0, .expect 0xFA,
   .waitInputClear, .outb ps2Data 0x01, .expect 0xFA,
   .waitInputClear, .outb ps2Data 0xF4, .expect 0xFA]

/-- `keyboard::init`; it returns `true` for `ok`. -/
def keyboardInit (dev : Ps2Device) (fuel : Nat) : Ps2Result × Ps2 := Ps2.run dev fuel initScript ⟨[], 0⟩

/-! ## The protocol -/

/-- What has been seen of the controller. -/
structure Seen where
  /-- The input buffer was empty, and nothing was written since. -/
  clear : Bool
  /-- The last access says that there is data. -/
  full : Bool

/-- The next access, if it is allowed. -/
def Seen.next (w : Seen) : PortAccess → Option Seen
  | .read port v =>
      if port = ps2Cmd then some ⟨w.clear || decide (v &&& statusInputFull = 0), decide (v &&& statusOutputFull ≠ 0)⟩
      else if w.full then some ⟨w.clear, false⟩ else none
  | .write _ _ => if w.clear then some ⟨false, false⟩ else none

/-- All accesses, if they are allowed. -/
def Seen.after (w : Seen) (log : List PortAccess) : Option Seen := log.foldlM Seen.next w

def writes (log : List PortAccess) : List (Nat × UInt8) :=
  log.filterMap fun a =>
    match a with
    | .write port v => some (port, v)
    | .read _ _ => none

/-- Nothing is known at first. -/
def unseen : Seen := ⟨false, false⟩

theorem after_snoc (log : List PortAccess) (a : PortAccess) :
    unseen.after (log ++ [a]) = (unseen.after log).bind fun w => w.next a := by
  rw [Seen.after, List.foldlM_append]
  simp [Seen.after]

/-- The accesses are allowed, and if `c` then the input buffer is known to be empty. -/
def Known (c : Bool) (log : List PortAccess) : Prop := ∃ w, unseen.after log = some w ∧ (c = true → w.clear = true)

theorem Known.weaken {c : Bool} {log : List PortAccess} (h : Known c log) : Known false log := by
  obtain ⟨w, hw, -⟩ := h
  exact ⟨w, hw, fun hc => absurd hc (by decide)⟩

theorem Known.status {c : Bool} {log : List PortAccess} (h : Known c log) (v : UInt8) :
    Known (c || decide (v &&& statusInputFull = 0)) (log ++ [.read ps2Cmd v]) := by
  obtain ⟨w, hw, hclear⟩ := h
  refine ⟨⟨w.clear || decide (v &&& statusInputFull = 0), decide (v &&& statusOutputFull ≠ 0)⟩, ?_, fun hc => ?_⟩
  · rw [after_snoc, hw]
    rfl
  · rw [Bool.or_eq_true] at hc ⊢
    exact hc.imp hclear id

theorem Known.data {c : Bool} {log : List PortAccess} (h : Known c log) {v : UInt8}
    (hfull : v &&& statusOutputFull ≠ 0) (b : UInt8) :
    Known c (log ++ [.read ps2Cmd v] ++ [.read ps2Data b]) := by
  obtain ⟨w, hw, hclear⟩ := h
  refine ⟨⟨w.clear || decide (v &&& statusInputFull = 0), false⟩, ?_, fun hc => ?_⟩
  · rw [after_snoc, after_snoc, hw, Option.bind_some, Seen.next, if_pos rfl, Option.bind_some, Seen.next,
      if_neg (by decide), if_pos (decide_eq_true hfull)]
  · rw [Bool.or_eq_true]
    exact .inl (hclear hc)

theorem Known.write {log : List PortAccess} (h : Known true log) (port : Nat) (v : UInt8) :
    Known false (log ++ [.write port v]) := by
  obtain ⟨w, hw, hclear⟩ := h
  refine ⟨⟨false, false⟩, ?_, fun hc => absurd hc (by decide)⟩
  rw [after_snoc, hw, Option.bind_some, Seen.next, if_pos (hclear rfl)]

theorem writes_snoc_read (log : List PortAccess) (port : Nat) (v : UInt8) :
    writes (log ++ [.read port v]) = writes log := by
  simp [writes]

theorem writes_snoc_write (log : List PortAccess) (port : Nat) (v : UInt8) :
    writes (log ++ [.write port v]) = writes log ++ [(port, v)] := by
  simp [writes]

/-! ## The loops -/

section

variable (dev : Ps2Device) {c : Bool} {log : List PortAccess}

theorem waitInputClear_spec (n : Nat) (h : Known c log) :
    Known (c || (waitInputClear dev n log).1) (waitInputClear dev n log).2 ∧
      writes (waitInputClear dev n log).2 = writes log := by
  induction n generalizing log with
  | zero => exact ⟨by simpa [waitInputClear] using h, rfl⟩
  | succ n ih =>
      have hstatus := h.status (dev log ps2Cmd)
      rw [waitInputClear]
      split_ifs with hclear
      · rw [decide_eq_true hclear] at hstatus
        exact ⟨hstatus, writes_snoc_read _ _ _⟩
      · rw [decide_eq_false hclear, Bool.or_false] at hstatus
        obtain ⟨hknown, hwrites⟩ := ih hstatus
        exact ⟨hknown, hwrites.trans (writes_snoc_read _ _ _)⟩

/-- A status that is not looked at for the input buffer. -/
theorem Known.keep (h : Known c log) (v : UInt8) : Known c (log ++ [.read ps2Cmd v]) := by
  obtain ⟨w, hw, hclear⟩ := h.status v
  exact ⟨w, hw, fun hc => hclear (by rw [hc, Bool.true_or])⟩

theorem readByte_spec (n : Nat) (h : Known c log) :
    Known c (readByte dev n log).2 ∧ writes (readByte dev n log).2 = writes log := by
  induction n generalizing log with
  | zero => exact ⟨h, rfl⟩
  | succ n ih =>
      rw [readByte]
      dsimp only
      split_ifs with hfull
      · exact ⟨h.data hfull _, by rw [writes_snoc_read, writes_snoc_read]⟩
      · obtain ⟨hknown, hwrites⟩ := ih (h.keep (dev log ps2Cmd))
        exact ⟨hknown, hwrites.trans (writes_snoc_read _ _ _)⟩

theorem flushOutput_spec (n : Nat) (h : Known c log) :
    Known c (flushOutput dev n log).2 ∧ writes (flushOutput dev n log).2 = writes log := by
  induction n generalizing log with
  | zero => exact ⟨h, rfl⟩
  | succ n ih =>
      rw [flushOutput]
      split_ifs with hfull
      · obtain ⟨hknown, hwrites⟩ := ih (h.data hfull _)
        exact ⟨hknown, hwrites.trans (by rw [writes_snoc_read, writes_snoc_read])⟩
      · exact ⟨h.keep _, writes_snoc_read _ _ _⟩

end

/-! ## The instructions -/

/-- Whether the input buffer is known to be empty after an instruction; `none` if it writes without that. -/
def Ps2Instr.clearAfter (c : Bool) : Ps2Instr → Option Bool
  | waitInputClear => some true
  | outb _ _ | writeConfig => if c then some false else none
  | flush | expect _ | readConfig | readAny => some c

/-- What an instruction writes. -/
def Ps2Instr.out (cfg : UInt8) : Ps2Instr → List (Nat × UInt8)
  | outb port v => [(port, v)]
  | writeConfig => [(ps2Data, newConfig cfg)]
  | _ => []

variable {dev : Ps2Device} {fuel : Nat}

/-- **One instruction.** -/
theorem Ps2Instr.exec_spec {i : Ps2Instr} {c c' : Bool} {s : Ps2} (h : Known c s.log) (hc : i.clearAfter c = some c') :
    Known false (i.exec dev fuel s).2.log ∧
      ((i.exec dev fuel s).1 = .ok → Known c' (i.exec dev fuel s).2.log) ∧
      writes (i.exec dev fuel s).2.log = writes s.log ++ i.out s.cfg := by
  cases i with
  | waitInputClear =>
      obtain ⟨hknown, hwrites⟩ := waitInputClear_spec dev pollLimit h
      obtain rfl := Option.some.inj hc
      refine ⟨hknown.weaken, fun hok => ?_, hwrites.trans (List.append_nil _).symm⟩
      have hclear : (Rolnix.waitInputClear dev pollLimit s.log).1 = true := by
        by_contra hne
        rw [exec, if_neg hne] at hok
        cases hok
      rwa [hclear, Bool.or_true] at hknown
  | outb port v =>
      simp only [clearAfter] at hc
      split_ifs at hc with hclear
      obtain rfl := Option.some.inj hc
      have hknown := (hclear ▸ h).write port v
      exact ⟨hknown, fun _ => hknown, writes_snoc_write _ _ _⟩
  | writeConfig =>
      simp only [clearAfter] at hc
      split_ifs at hc with hclear
      obtain rfl := Option.some.inj hc
      have hknown := (hclear ▸ h).write ps2Data (newConfig s.cfg)
      exact ⟨hknown, fun _ => hknown, writes_snoc_write _ _ _⟩
  | flush =>
      obtain ⟨hknown, hwrites⟩ := flushOutput_spec dev fuel h
      obtain rfl := Option.some.inj hc
      exact ⟨hknown.weaken, fun _ => hknown, hwrites.trans (List.append_nil _).symm⟩
  | expect v =>
      obtain ⟨hknown, hwrites⟩ := readByte_spec dev pollLimit h
      obtain rfl := Option.some.inj hc
      exact ⟨hknown.weaken, fun _ => hknown, hwrites.trans (List.append_nil _).symm⟩
  | readConfig =>
      obtain ⟨hknown, hwrites⟩ := readByte_spec dev pollLimit h
      obtain rfl := Option.some.inj hc
      exact ⟨hknown.weaken, fun _ => hknown, hwrites.trans (List.append_nil _).symm⟩
  | readAny =>
      obtain ⟨hknown, hwrites⟩ := readByte_spec dev pollLimit h
      obtain rfl := Option.some.inj hc
      exact ⟨hknown.weaken, fun _ => hknown, hwrites.trans (List.append_nil _).symm⟩

/-- What a list of instructions writes, when the configuration is `cfg` up to `readConfig` and `cfg'` from there on. -/
def scriptOut (cfg cfg' : UInt8) : List Ps2Instr → List (Nat × UInt8)
  | [] => []
  | i :: is => i.out cfg ++ scriptOut (if i = .readConfig then cfg' else cfg) cfg' is

theorem Ps2Instr.cfg_exec {i : Ps2Instr} (h : i ≠ .readConfig) (s : Ps2) : (i.exec dev fuel s).2.cfg = s.cfg := by
  cases i <;> first | rfl | exact absurd rfl h

theorem Ps2.run_cfg {is : List Ps2Instr} {s : Ps2} (h : .readConfig ∉ is) : (s.run dev fuel is).2.cfg = s.cfg := by
  induction is generalizing s with
  | nil => rfl
  | cons i is ih =>
      rw [List.mem_cons, not_or] at h
      have hi := @Ps2Instr.cfg_exec dev fuel i (Ne.symm h.1) s
      rw [Ps2.run]
      split_ifs
      · exact (ih h.2).trans hi
      · exact hi

/-- **A list of instructions** that never writes without looking, and reads the configuration at most once. -/
theorem Ps2.run_spec {is : List Ps2Instr} {c : Bool} {s : Ps2} (h : Known c s.log)
    (hclear : (is.foldlM Ps2Instr.clearAfter c).isSome) (hconfig : is.count .readConfig ≤ 1) :
    Known false (s.run dev fuel is).2.log ∧
      writes (s.run dev fuel is).2.log <+: writes s.log ++ scriptOut s.cfg (s.run dev fuel is).2.cfg is ∧
      ((s.run dev fuel is).1 = .ok →
        writes (s.run dev fuel is).2.log = writes s.log ++ scriptOut s.cfg (s.run dev fuel is).2.cfg is) := by
  induction is generalizing c s with
  | nil =>
      rw [Ps2.run, scriptOut, List.append_nil]
      exact ⟨h.weaken, List.prefix_rfl, fun _ => rfl⟩
  | cons i is ih =>
      cases hca : i.clearAfter c with
      | none => simp [hca] at hclear
      | some c' =>
          have hrest : (is.foldlM Ps2Instr.clearAfter c').isSome := by simpa [hca] using hclear
          obtain ⟨hstop, hgo, hwrites⟩ := @Ps2Instr.exec_spec dev fuel i c c' s h hca
          rw [List.count_cons] at hconfig
          rw [scriptOut, Ps2.run, ← List.append_assoc, ← hwrites]
          by_cases hok : (i.exec dev fuel s).1 = .ok
          · rw [if_pos hok]
            have hnext := ih (hgo hok) hrest (by omega)
            -- the configuration in force at the next instruction
            have hcfg : scriptOut (if i = .readConfig then ((i.exec dev fuel s).2.run dev fuel is).2.cfg else s.cfg)
                ((i.exec dev fuel s).2.run dev fuel is).2.cfg is =
                scriptOut (i.exec dev fuel s).2.cfg ((i.exec dev fuel s).2.run dev fuel is).2.cfg is := by
              by_cases hread : i = .readConfig
              · rw [if_pos (by simpa using hread)] at hconfig
                have hnone : .readConfig ∉ is := List.count_eq_zero.1 (by omega)
                rw [if_pos hread, Ps2.run_cfg hnone]
              · rw [if_neg hread, Ps2Instr.cfg_exec hread]
            rw [hcfg]
            exact hnext
          · rw [if_neg hok]
            exact ⟨hstop, List.prefix_append _ _, fun h => absurd h hok⟩

/-! ## The device -/

/-- The controller with the keyboard behind it, as far as `init` sets them up. -/
structure Kbc where
  config : UInt8
  /-- The next data byte is the configuration. -/
  configNext : Bool
  disabled : Bool
  /-- The next data byte is the number of a set of codes. -/
  setNext : Bool
  codeSet : UInt8
  scanning : Bool

/-- A write. A self-test may leave any configuration, so it is left as it is until it is written. -/
def Kbc.write (k : Kbc) (w : Nat × UInt8) : Kbc :=
  if w.1 = ps2Cmd then
    if w.2 = 0xAD then { k with disabled := true }
    else if w.2 = 0xAE then { k with disabled := false }
    else { k with configNext := w.2 = 0x60 }
  else if k.configNext then { k with config := w.2, configNext := false }
  else if k.setNext then { k with codeSet := w.2, setNext := false }
  else if w.2 = 0xFF then { k with codeSet := 2, scanning := true }
  else if w.2 = 0xF0 then { k with setNext := true }
  else if w.2 = 0xF4 then { k with scanning := true }
  else k

theorem scriptOut_init (cfg : UInt8) :
    scriptOut 0 cfg initScript =
      [(ps2Cmd, 0xAD), (ps2Cmd, 0xAA), (ps2Cmd, 0x20), (ps2Cmd, 0x60), (ps2Data, newConfig cfg), (ps2Cmd, 0xAE),
       (ps2Data, 0xFF), (ps2Data, 0xF0), (ps2Data, 0x01), (ps2Data, 0xF4)] := rfl

/-- **`init` keeps to the protocol,** and what it writes sets the keyboard up. -/
theorem keyboardInit_protocol (dev : Ps2Device) (fuel : Nat) :
    (unseen.after (keyboardInit dev fuel).2.log).isSome ∧
      writes (keyboardInit dev fuel).2.log <+: scriptOut 0 (keyboardInit dev fuel).2.cfg initScript ∧
      ((keyboardInit dev fuel).1 = .ok → ∀ k : Kbc,
        (writes (keyboardInit dev fuel).2.log).foldl Kbc.write k =
          ⟨newConfig (keyboardInit dev fuel).2.cfg, false, false, false, 1, true⟩) := by
  have hstart : Known false (Ps2.mk [] 0).log := ⟨unseen, rfl, fun h => absurd h (by decide)⟩
  obtain ⟨⟨w, hw, -⟩, hpre, hall⟩ := @Ps2.run_spec dev fuel initScript false ⟨[], 0⟩ hstart (by decide) (by decide)
  refine ⟨Option.isSome_iff_exists.2 ⟨w, hw⟩, hpre, fun hok k => ?_⟩
  have hwrites : writes (keyboardInit dev fuel).2.log = scriptOut 0 (keyboardInit dev fuel).2.cfg initScript :=
    hall hok
  rw [hwrites, scriptOut_init]
  -- a keyboard that waits for the number of a set takes the reset for it, and is told again
  cases hset : k.setNext with
  | false => simp [Kbc.write, hset, ps2Cmd, ps2Data]
  | true => simp [Kbc.write, hset, ps2Cmd, ps2Data]

/-- A controller that answers at once. -/
def promptDevice : Ps2Device := fun log port =>
  let since := log.reverse.takeWhile fun a =>
    match a with
    | .read _ _ => true
    | .write _ _ => false
  let answers : List UInt8 :=
    match (writes log).getLast? with
    | some (_, 0xAA) => [0x55]
    | some (_, 0x20) => [0x65]
    | some (_, 0xFF) => [0xFA, 0xAA]
    | some (0x60, 0xF0) => [0xFA]
    | some (0x60, 0x01) => [0xFA]
    | some (0x60, 0xF4) => [0xFA]
    | _ => []
  let left := answers.drop (since.countP fun a =>
    match a with
    | .read 0x60 _ => true
    | _ => false)
  if port = ps2Cmd then (if left.isEmpty then 0 else 1) else left.headD 0

/-- The interrupt is on and translation is off. -/
theorem keyboardInit_protocol_prompt :
    (keyboardInit promptDevice 1).1 = .ok ∧
      ((writes (keyboardInit promptDevice 1).2.log).foldl Kbc.write ⟨0, false, false, false, 2, false⟩).config = 0x25 := by
  have hok : (keyboardInit promptDevice 1).1 = .ok := by decide
  have hcfg : (keyboardInit promptDevice 1).2.cfg = 0x65 := by decide
  refine ⟨hok, ?_⟩
  rw [(keyboardInit_protocol promptDevice 1).2.2 hok, hcfg]
  decide

end Rolnix
