import Rolnix.UserProg

/-!
# The ring-3 program: what it does

The program is executed symbolically. A lemma about each kind of instruction moves a process from one
instruction number to the next (`UserImage.Goes`); the loops are inductions over the bytes of a string, the
digits of a number and a counter. Between the parts, only `r12`, `r13`, the stack pointer and the memory
outside of the free part of the stack matter (`Keeps`).

`exec_rest`: every run of the program is a part of the one that prints its text and exits.
`printDec_spec`: `print_dec` prints any 64-bit number in decimal.
-/

namespace Rolnix

open X86
open Runs (Exec)

namespace UserImage

variable {pid : Nat} (U : UserImage pid)

/-- The process is about to execute instruction `i`. -/
def here (i : Nat) (s : State) : User := ⟨s.goto (U.addr i), false⟩

/-- The process gets from instruction `i` to instruction `j`. -/
def Goes (i : Nat) (s : State) (es : List Sys) (j : Nat) (s' : State) : Prop :=
  Exec (User.step U.program pid) (U.here i s) es (U.here j s')

variable {U}
variable {s s' : State} {i j k : Nat} {es es' : List Sys}

theorem Goes.trans {s₁ : State} (h : U.Goes i s es j s₁) (h' : U.Goes j s₁ es' k s') :
    U.Goes i s (es ++ es') k s' :=
  Exec.trans h h'

theorem Goes.quiet {s₁ : State} (h : U.Goes i s [] j s₁) (h' : U.Goes j s₁ es k s') :
    U.Goes i s es k s' :=
  Exec.trans h h'

/-- One step of the process is one step of the program. -/
theorem step_here {op : Op} (hop : U.program.ops[i]? = some op) (hok : op.Ok (userWindow pid) s) :
    U.program.step (userWindow pid) (U.here i s).state = U.program.act i (s.goto (U.addr i)) op :=
  Program.step_eq hop rfl ((ok_goto _ s _ op).2 hok)

theorem goes_instr {ins : Instr} (hop : U.program.ops[i]? = some (.instr ins))
    (hok : ins.Ok (userWindow pid) s) (hexec : exec s ins = some s') : U.Goes i s [] (i + 1) s' := by
  refine Exec.single ?_
  rw [User.step, if_neg (by simp [here]), step_here hop hok, Program.act, exec_goto, hexec]
  rfl

theorem goes_jnz {target : Nat} (hop : U.program.ops[i]? = some (.jnz target)) :
    U.Goes i s [] (if s.cpu.zeroFlag then i + 1 else target) s := by
  refine Exec.single ?_
  rw [User.step, if_neg (by simp [here]), step_here hop trivial]
  rfl

theorem goes_call {target : Nat} (hop : U.program.ops[i]? = some (.call target)) (hsp : 8 ≤ s.sp)
    (hw : (userWindow pid).Writable (s.sp - 8) 8) :
    U.Goes i s [] target (s.push (U.addr (i + 1))) := by
  refine Exec.single ?_
  rw [User.step, if_neg (by simp [here]), step_here hop ⟨hsp, hw⟩]
  rfl

theorem goes_ret (hop : U.program.ops[i]? = some .ret) (hr : (userWindow pid).Readable s.sp 8)
    (hj : s.peek 0 = U.addr j) : U.Goes i s [] j (s.set .rsp (s.cpu.regs .rsp + 8)) := by
  refine Exec.single ?_
  rw [User.step, if_neg (by simp [here]), step_here hop hr, here, ← hj]
  rfl

theorem step_int (hop : U.program.ops[i]? = some (.int 0x80)) :
    User.step U.program pid (U.here i s) = User.syscall pid (s.goto (U.addr (i + 1))) := by
  rw [User.step, if_neg (by simp [here]), step_here hop trivial]
  rfl

theorem goes_putc (hop : U.program.ops[i]? = some (.int 0x80)) (hrax : s.cpu.regs .rax = 0) :
    U.Goes i s [.putc (UInt8.ofNat (s.cpu.regs .rdi).toNat)] (i + 1) s := by
  refine Exec.single ?_
  rw [step_int hop, User.syscall, State.goto, hrax]
  rfl

theorem goes_getpid (hop : U.program.ops[i]? = some (.int 0x80)) (hrax : s.cpu.regs .rax = 3) :
    U.Goes i s [] (i + 1) (s.set .rax (BitVec.ofNat 64 pid)) := by
  refine Exec.single ?_
  rw [step_int hop, User.syscall, State.goto, hrax]
  rfl

theorem goes_yield (hop : U.program.ops[i]? = some (.int 0x80)) (hrax : s.cpu.regs .rax = 4) :
    U.Goes i s [.yield] (i + 1) s := by
  refine Exec.single ?_
  rw [step_int hop, User.syscall, State.goto, hrax]
  rfl

theorem op_at {l : List Op} {op : Op} (h : l <+: U.program.ops.drop i) (hk : l[k]? = some op) :
    U.program.ops[i + k]? = some op := by
  obtain ⟨rest, hrest⟩ := h
  rw [← List.getElem?_drop, ← hrest, List.getElem?_append_left (List.getElem?_eq_some_iff.1 hk).1, hk]

/-! ## What parts of the program keep -/

/-- The registers that hold something across the parts. -/
def kept : List Reg := [.r12, .r13, .rsp]

/-- Nothing but other registers and the free part of the stack page has changed. -/
structure Keeps (pid : Nat) (s s' : State) : Prop where
  regs : ∀ r ∈ kept, s'.cpu.regs r = s.cpu.regs r
  mem : ∀ x, s.sp ≤ x ∨ x < userStackTop pid - 4096 → s'.mem x = s.mem x

theorem Keeps.refl (s : State) : Keeps pid s s := ⟨fun _ _ => rfl, fun _ _ => rfl⟩

theorem Keeps.sp (h : Keeps pid s s') : s'.sp = s.sp := by
  rw [State.sp, h.regs .rsp (by decide), State.sp]

theorem Keeps.trans {s₁ : State} (h : Keeps pid s s₁) (h' : Keeps pid s₁ s') : Keeps pid s s' :=
  ⟨fun r hr => (h'.regs r hr).trans (h.regs r hr),
    fun x hx => (h'.mem x (h.sp.symm ▸ hx)).trans (h.mem x hx)⟩

theorem keeps_set {r : Reg} (hr : r ∉ kept) (v : Quad) : Keeps pid s (s.set r v) := by
  refine ⟨fun r' hr' => ?_, fun _ _ => rfl⟩
  rw [State.regs_set, if_neg]
  rintro rfl
  exact hr hr'

theorem keeps_setResult {r : Reg} (hr : r ∉ kept) (v : Quad) : Keeps pid s (s.setResult r v) :=
  ⟨(@keeps_set pid s r hr v).regs, fun _ _ => rfl⟩

/-- The process gets from `i` to `j` and keeps what it has to. -/
def Does (U : UserImage pid) (i : Nat) (s : State) (es : List Sys) (j : Nat) (s' : State) : Prop :=
  U.Goes i s es j s' ∧ Keeps pid s s'

theorem Does.trans {s₁ : State} (h : U.Does i s es j s₁) (h' : U.Does j s₁ es' k s') :
    U.Does i s (es ++ es') k s' :=
  ⟨h.1.trans h'.1, h.2.trans h'.2⟩

theorem Does.quiet {s₁ : State} (h : U.Does i s [] j s₁) (h' : U.Does j s₁ es k s') :
    U.Does i s es k s' :=
  h.trans h'

theorem does_mov {r : Reg} {src : Src} (hop : U.program.ops[i]? = some (.instr (.mov r src)))
    (hr : r ∉ kept) : U.Does i s [] (i + 1) (s.set r (src.val s.cpu)) :=
  ⟨goes_instr hop trivial rfl, keeps_set hr _⟩

theorem does_jnz {target : Nat} (hop : U.program.ops[i]? = some (.jnz target)) :
    U.Does i s [] (if s.cpu.zeroFlag then i + 1 else target) s :=
  ⟨goes_jnz hop, .refl s⟩

/-! ## Printing characters and strings -/

/-- Load a character and print it. -/
def putcCode (c : Quad) : List Op :=
  [.instr (.mov .rax (.imm 0)), .instr (.mov .rdi (.imm c)), .int 0x80]

theorem does_putc {c : Quad} (hops : putcCode c <+: U.program.ops.drop i) (s : State) :
    ∃ s', U.Does i s [.putc (UInt8.ofNat c.toNat)] (i + 3) s' := by
  have hrax : U.Does i s [] (i + 1) (s.set .rax 0) := does_mov (@op_at _ U i 0 _ _ hops rfl) (by decide)
  have hrdi : U.Does (i + 1) (s.set .rax 0) [] (i + 2) ((s.set .rax 0).set .rdi c) :=
    does_mov (@op_at _ U i 1 _ _ hops rfl) (by decide)
  have hint := @goes_putc _ U ((s.set .rax 0).set .rdi c) (i + 2) (@op_at _ U i 2 _ _ hops rfl)
    (by simp)
  rw [State.regs_set, if_pos rfl] at hint
  exact ⟨_, hrax.quiet (hrdi.quiet ⟨hint, .refl _⟩)⟩

/-- The loop that prints `rcx` bytes from `rbx` on; it is instruction `b`. -/
def putsCode (b : Nat) : List Op :=
  [.instr (.movzb .rdi .rbx), .instr (.mov .rax (.imm 0)), .int 0x80, .instr (.inc .rbx),
    .instr (.dec .rcx), .jnz b]

theorem does_puts_once {b : Nat} (hops : putsCode b <+: U.program.ops.drop b)
    (hr : (userWindow pid).Readable (s.cpu.regs .rbx).toNat 1) :
    ∃ s', U.Does b s [.putc (s.mem (s.cpu.regs .rbx).toNat)] (if s.cpu.regs .rcx = 1 then b + 6 else b) s' ∧
      s'.cpu.regs .rbx = s.cpu.regs .rbx + 1 ∧ s'.cpu.regs .rcx = s.cpu.regs .rcx - 1 ∧ s'.mem = s.mem := by
  set c : Quad := BitVec.ofNat 64 (s.mem (s.cpu.regs .rbx).toNat).toNat with hc
  have hload : U.Does b s [] (b + 1) (s.set .rdi c) :=
    ⟨goes_instr (@op_at _ U b 0 _ _ hops rfl) hr rfl, keeps_set (by decide) c⟩
  have hrax : U.Does (b + 1) (s.set .rdi c) [] (b + 2) ((s.set .rdi c).set .rax 0) :=
    does_mov (@op_at _ U b 1 _ _ hops rfl) (by decide)
  set s₁ := (s.set .rdi c).set .rax 0 with hs₁
  have hint := @goes_putc _ U s₁ (b + 2) (@op_at _ U b 2 _ _ hops rfl) (by simp [hs₁])
  have hinc : U.Does (b + 3) s₁ [] (b + 4) (s₁.setResult .rbx (s₁.cpu.regs .rbx + 1)) :=
    ⟨goes_instr (@op_at _ U b 3 _ _ hops rfl) trivial rfl, keeps_setResult (by decide) _⟩
  set s₂ := s₁.setResult .rbx (s₁.cpu.regs .rbx + 1) with hs₂
  have hdec : U.Does (b + 4) s₂ [] (b + 5) (s₂.setResult .rcx (s₂.cpu.regs .rcx - 1)) :=
    ⟨goes_instr (@op_at _ U b 4 _ _ hops rfl) trivial rfl, keeps_setResult (by decide) _⟩
  set s₃ := s₂.setResult .rcx (s₂.cpu.regs .rcx - 1) with hs₃
  have hjnz := @does_jnz _ U s₃ (b + 5) b (@op_at _ U b 5 _ _ hops rfl)
  have hbyte : UInt8.ofNat (s₁.cpu.regs .rdi).toNat = s.mem (s.cpu.regs .rbx).toNat := by
    simp [hs₁, hc]
  have hflag : s₃.cpu.zeroFlag = decide (s.cpu.regs .rcx = 1) := by
    have hrcx : s₂.cpu.regs .rcx = s.cpu.regs .rcx := by simp [hs₂, hs₁]
    rw [hs₃, State.zeroFlag_setResult, hrcx]
    exact decide_eq_decide.2 sub_eq_zero
  refine ⟨s₃, ?_, by simp [hs₃, hs₂, hs₁], by simp [hs₃, hs₂, hs₁], rfl⟩
  rw [hbyte] at hint
  simp only [hflag, decide_eq_true_eq] at hjnz
  exact hload.quiet (hrax.quiet (Does.trans ⟨hint, .refl s₁⟩ (hinc.quiet (hdec.quiet hjnz))))

/-- **The loop prints the string.** -/
theorem does_puts {b a : Nat} (hops : putsCode b <+: U.program.ops.drop b) {bs : List UInt8}
    (hne : bs ≠ []) (hlow : userCodeVa pid ≤ a) (hhigh : a + bs.length ≤ userCodeVa pid + procStride)
    (hlt : a + bs.length < 2 ^ 64) (hrbx : s.cpu.regs .rbx = BitVec.ofNat 64 a)
    (hrcx : s.cpu.regs .rcx = BitVec.ofNat 64 bs.length) (hmem : s.mem.Holds a bs) :
    ∃ s', U.Does b s (bs.map .putc) (b + 6) s' := by
  induction bs generalizing s a with
  | nil => exact absurd rfl hne
  | cons c bs ih =>
      rw [List.length_cons] at hhigh hlt hrcx
      have ha : (s.cpu.regs .rbx).toNat = a := by
        rw [hrbx, BitVec.toNat_ofNat, Nat.mod_eq_of_lt (by omega)]
      have hfirst : s.mem a = c := (Option.some.inj (hmem 0 (Nat.succ_pos _))).symm
      obtain ⟨s₁, honce, hrbx₁, hrcx₁, hmem₁⟩ := does_puts_once hops (s := s)
        (by rw [ha]; exact ⟨hlow, (by omega : a + 1 ≤ userCodeVa pid + procStride)⟩)
      rw [ha, hfirst] at honce
      cases hbs : bs with
      | nil =>
          rw [if_pos (by rw [hrcx, hbs]; rfl)] at honce
          exact ⟨s₁, honce⟩
      | cons c' bs' =>
          have hnot : s.cpu.regs .rcx ≠ 1 := by
            intro h
            have hval := congrArg BitVec.toNat (hrcx.symm.trans h)
            rw [BitVec.toNat_ofNat, Nat.mod_eq_of_lt (by omega), hbs] at hval
            simp at hval
          rw [if_neg hnot] at honce
          have hrest : s₁.mem.Holds (a + 1) bs := by
            rw [hmem₁]
            exact (ByteMem.holds_append.1 (show s.mem.Holds a ([c] ++ bs) from hmem)).2
          obtain ⟨s', hloop⟩ := @ih s₁ (a + 1) (by rw [hbs]; exact List.cons_ne_nil _ _) (by omega)
            (by omega) (by omega) (by rw [hrbx₁, hrbx, BitVec.ofNat_add]; rfl)
            (by rw [hrcx₁, hrcx, BitVec.ofNat_add]; exact add_sub_cancel_right _ _) hrest
          rw [hbs] at hloop
          exact ⟨s', honce.trans hloop⟩

/-! ## `print_dec` -/

theorem goes_digit {n : Nat} {ws : List Nat} (hrax : s.cpu.regs .rax = BitVec.ofNat 64 n)
    (hn : n < 2 ^ 64) (hrcx : s.cpu.regs .rcx = 10) (hws : s.mem.Words s.sp ws) (hsp : 8 ≤ s.sp)
    (hw : (userWindow pid).Writable (s.sp - 8) 8) :
    ∃ s', U.Goes 53 s [] (if n / 10 = 0 then 59 else 53) s' ∧
      s'.cpu.regs .rax = BitVec.ofNat 64 (n / 10) ∧ s'.sp = s.sp - 8 ∧
      s'.mem.Words s'.sp ((n % 10 + 48) :: ws) ∧
      (∀ x, x < s.sp - 8 ∨ s.sp ≤ x → s'.mem x = s.mem x) ∧
      ∀ r ∉ [Reg.rax, .rdx, .rsp], s'.cpu.regs r = s.cpu.regs r := by
  set s₁ := s.setResult .rdx (s.cpu.regs .rdx ^^^ s.cpu.regs .rdx) with hs₁
  have hxor : U.Goes 53 s [] 54 s₁ := goes_instr rfl trivial rfl
  set s₂ := (s₁.set .rax (BitVec.ofNat 64 (n / 10))).set .rdx (BitVec.ofNat 64 (n % 10)) with hs₂
  have hexec : exec s₁ (.div .rcx) = some s₂ := by
    have hn₁ : (s₁.cpu.regs .rdx).toNat * 2 ^ 64 + (s₁.cpu.regs .rax).toNat = n := by
      simp [hs₁, hrax]
      exact hn
    have hd₁ : (s₁.cpu.regs .rcx).toNat = 10 := by simp [hs₁, hrcx]
    rw [exec, hn₁, hd₁, State.divide, if_neg (by omega)]
  have hdiv : U.Goes 54 s₁ [] 55 s₂ := goes_instr rfl trivial hexec
  set s₃ := s₂.setResult .rdx (s₂.cpu.regs .rdx + 48) with hs₃
  have hadd : U.Goes 55 s₂ [] 56 s₃ := goes_instr rfl trivial rfl
  have hsp₃ : s₃.sp = s.sp := by simp [State.sp, hs₃, hs₂, hs₁]
  have hpush : U.Goes 56 s₃ [] 57 (s₃.push (s₃.cpu.regs .rdx)) :=
    goes_instr rfl ⟨hsp₃ ▸ hsp, hsp₃ ▸ hw⟩ rfl
  set s₄ := s₃.push (s₃.cpu.regs .rdx) with hs₄
  have hregs : ∀ r ≠ .rsp, s₄.cpu.regs r = s₃.cpu.regs r := fun r hr => Cpu.regs_set_of_ne hr
  set s₅ : State := { s₄ with cpu := s₄.cpu.setZeroFlag (s₄.cpu.regs .rax - 0) } with hs₅
  have hcmp : U.Goes 57 s₄ [] 58 s₅ := goes_instr rfl trivial rfl
  have hrax₄ : s₄.cpu.regs .rax = BitVec.ofNat 64 (n / 10) := by
    rw [hregs .rax (by decide)]
    simp [hs₃, hs₂]
  have hdigit : (s₃.cpu.regs .rdx).toNat = n % 10 + 48 := by
    simp [hs₃, hs₂]
    omega
  have hflag : s₅.cpu.zeroFlag = decide (n / 10 = 0) := by
    rw [hs₅, Cpu.zeroFlag_setZeroFlag, hrax₄]
    exact decide_eq_decide.2 (by bv_omega)
  have hjnz := @goes_jnz _ U s₅ 58 53 rfl
  simp only [hflag, decide_eq_true_eq] at hjnz
  have hsp₄ : 8 ≤ s₃.sp := hsp₃ ▸ hsp
  refine ⟨s₅, hxor.quiet (hdiv.quiet (hadd.quiet (hpush.quiet (hcmp.quiet hjnz)))), hrax₄, ?_, ?_, ?_, ?_⟩
  · rw [← hsp₃]
    exact @State.sp_push s₃ (s₃.cpu.regs .rdx) hsp₄
  · rw [← hdigit]
    exact State.words_push hsp₄ (hsp₃.symm ▸ hws)
  · intro x hx
    change s₄.mem x = s₃.mem x
    rw [hs₄, State.mem_push hsp₄, hsp₃, ByteMem.store_of_not_mem (by omega)]
  · intro r hr
    simp only [List.mem_cons, List.not_mem_nil, or_false, not_or] at hr
    change s₄.cpu.regs r = _
    rw [hregs r hr.2.2]
    simp [hs₃, hs₂, hs₁, hr]

/-- The stack words that print as the decimal digits. -/
def digitWords (n : Nat) : List Nat := (Nat.toDigits 10 n).map Char.toNat

theorem toNat_digitChar {d : Nat} (hd : d < 10) : (Nat.digitChar d).toNat = d + 48 := by
  revert d
  decide

theorem digitWords_of_lt {n : Nat} (h : n / 10 = 0) : digitWords n = [n % 10 + 48] := by
  rw [digitWords, Nat.toDigits_of_lt_base (by omega), List.map_singleton, toNat_digitChar (by omega),
    Nat.mod_eq_of_lt (by omega)]

theorem digitWords_of_le {n : Nat} (h : n / 10 ≠ 0) :
    digitWords n = digitWords (n / 10) ++ [n % 10 + 48] := by
  rw [digitWords, Nat.toDigits_of_base_le (by omega) (by omega), List.map_append, List.map_singleton,
    toNat_digitChar (by omega), digitWords]

/-- **The loop that divides leaves the digits on the stack,** the first one on top. -/
theorem goes_digits {n : Nat} {ws : List Nat} (hrax : s.cpu.regs .rax = BitVec.ofNat 64 n)
    (hn : n < 2 ^ 64) (hrcx : s.cpu.regs .rcx = 10) (hws : s.mem.Words s.sp ws)
    (hlow : userStackTop pid - 4096 + 8 * (digitWords n).length ≤ s.sp) (hhigh : s.sp ≤ userStackTop pid) :
    ∃ s', U.Goes 53 s [] 59 s' ∧ s'.sp + 8 * (digitWords n).length = s.sp ∧
      s'.mem.Words s'.sp (digitWords n ++ ws) ∧
      (∀ x, s.sp ≤ x ∨ x < userStackTop pid - 4096 → s'.mem x = s.mem x) ∧
      ∀ r ∉ [Reg.rax, .rdx, .rsp], s'.cpu.regs r = s.cpu.regs r := by
  induction n using Nat.strongRecOn generalizing s ws with
  | ind n ih =>
      have hpos : 1 ≤ (digitWords n).length := by
        rw [digitWords, List.length_map]
        exact Nat.length_toDigits_pos
      obtain ⟨s₁, hgoes, hrax₁, hsp₁, hws₁, hmem₁, hregs₁⟩ := goes_digit hrax hn hrcx hws (by omega)
        (show (userWindow pid).Writable (s.sp - 8) 8 from
          ⟨(by omega : userStackTop pid - 4096 ≤ s.sp - 8), (by omega : s.sp - 8 + 8 ≤ userStackTop pid)⟩)
      by_cases hlast : n / 10 = 0
      · rw [if_pos hlast] at hgoes
        rw [digitWords_of_lt hlast, List.length_singleton] at hlow ⊢
        exact ⟨s₁, hgoes, by omega, hws₁, fun x hx => hmem₁ x (by omega), hregs₁⟩
      · rw [if_neg hlast] at hgoes
        rw [digitWords_of_le hlast, List.length_append, List.length_singleton] at hlow ⊢
        obtain ⟨s', hloop, hsp', hws', hmem', hregs'⟩ := ih (n / 10) (by omega) hrax₁ (by omega)
          ((hregs₁ .rcx (by decide)).trans hrcx) hws₁ (by omega) (by omega)
        refine ⟨s', hgoes.quiet hloop, by omega, ?_, fun x hx => ?_, fun r hr => ?_⟩
        · rw [List.append_assoc]
          exact hws'
        · rw [hmem' x (by omega), hmem₁ x (by omega)]
        · rw [hregs' r hr, hregs₁ r hr]

theorem goes_print_once {c : Char} {ws : List Nat} (hws : s.mem.Words s.sp (c.toNat :: ws))
    (hr : (userWindow pid).Readable s.sp 8) (hsp : s.sp + 8 ≤ (s.cpu.regs .rsi).toNat) :
    ∃ s', U.Goes 59 s [.putc c.toUInt8] (if s.sp + 8 = (s.cpu.regs .rsi).toNat then 65 else 59) s' ∧
      s'.sp = s.sp + 8 ∧ s'.mem = s.mem ∧
      ∀ r ∉ [Reg.rax, .rdx, .rdi, .rsp], s'.cpu.regs r = s.cpu.regs r := by
  have hlt := (s.cpu.regs .rsi).isLt
  have hpop : U.Goes 59 s [] 60 (s.pop .rdx) := goes_instr rfl hr rfl
  have hsp₁ : (s.pop .rdx).sp = s.sp + 8 := State.sp_pop (by decide) (by omega)
  have hrdx : (s.pop .rdx).cpu.regs .rdx = BitVec.ofNat 64 c.toNat := by
    rw [State.pop, Cpu.regs_set_self, State.peek_zero hws]
  have hregs : ∀ r, r ≠ .rdx → r ≠ .rsp → (s.pop .rdx).cpu.regs r = s.cpu.regs r := by
    intro r h h'
    rw [State.pop, Cpu.regs_set_of_ne h, Cpu.regs_set_of_ne h']
  set s₁ := s.pop .rdx with hs₁
  set s₂ := (s₁.set .rdi (s₁.cpu.regs .rdx)).set .rax 0 with hs₂
  have hmovs : U.Goes 60 s₁ [] 62 s₂ :=
    Goes.quiet (goes_instr rfl trivial rfl) (goes_instr rfl trivial rfl)
  have hint := @goes_putc _ U s₂ 62 rfl (by simp [hs₂])
  set s₃ : State := { s₂ with cpu := s₂.cpu.setZeroFlag (s₂.cpu.regs .rsi - s₂.cpu.regs .rsp) } with hs₃
  have hcmp : U.Goes 63 s₂ [] 64 s₃ := goes_instr rfl trivial rfl
  have hjnz := @goes_jnz _ U s₃ 64 59 rfl
  have hflag : s₃.cpu.zeroFlag = decide (s.sp + 8 = (s.cpu.regs .rsi).toNat) := by
    have hrsi : s₂.cpu.regs .rsi = s.cpu.regs .rsi := by
      simp [hs₂, hregs .rsi (by decide) (by decide)]
    have hrsp : s₂.cpu.regs .rsp = BitVec.ofNat 64 (s.sp + 8) := by
      rw [← hsp₁, ← State.regs_rsp]
      simp [hs₂]
    rw [hs₃, Cpu.zeroFlag_setZeroFlag, hrsi, hrsp]
    exact decide_eq_decide.2 (by bv_omega)
  have hbyte : UInt8.ofNat (s₂.cpu.regs .rdi).toNat = c.toUInt8 := by
    have hrdi : s₂.cpu.regs .rdi = BitVec.ofNat 64 c.toNat := by simp [hs₂, hrdx]
    have hc : c.toNat < 2 ^ 32 := c.val.toNat_lt
    rw [hrdi, BitVec.toNat_ofNat, Nat.mod_eq_of_lt (by omega)]
    rfl
  rw [hbyte] at hint
  simp only [hflag, decide_eq_true_eq] at hjnz
  refine ⟨s₃, hpop.quiet (hmovs.quiet (hint.trans (hcmp.quiet hjnz))), ?_, rfl, fun r hr' => ?_⟩
  · change s₂.sp = _
    rw [← hsp₁]
    simp [State.sp, hs₂]
  · simp only [List.mem_cons, List.not_mem_nil, or_false, not_or] at hr'
    change s₂.cpu.regs r = _
    rw [← hregs r hr'.2.1 hr'.2.2.2]
    simp [hs₂, hr']

/-- **The loop that prints takes the digits off the stack again.** -/
theorem goes_print {ds : List Char} {ws : List Nat} (hne : ds ≠ [])
    (hws : s.mem.Words s.sp (ds.map Char.toNat ++ ws)) (hlow : userCodeVa pid ≤ s.sp)
    (hhigh : s.sp + 8 * ds.length ≤ userStackTop pid)
    (hrsi : (s.cpu.regs .rsi).toNat = s.sp + 8 * ds.length) :
    ∃ s', U.Goes 59 s (ds.map fun c => .putc c.toUInt8) 65 s' ∧ s'.sp = s.sp + 8 * ds.length ∧
      s'.mem = s.mem ∧ ∀ r ∉ [Reg.rax, .rdx, .rdi, .rsp], s'.cpu.regs r = s.cpu.regs r := by
  induction ds generalizing s with
  | nil => exact absurd rfl hne
  | cons c ds ih =>
      rw [List.length_cons] at hhigh hrsi ⊢
      have htop : userStackTop pid ≤ (userWindow pid).high := (userWindow pid).le_high
      obtain ⟨s₁, hgoes, hsp₁, hmem₁, hregs₁⟩ := goes_print_once hws
        ⟨hlow, (by omega : s.sp + 8 ≤ (userWindow pid).high)⟩ (by omega)
      cases hds : ds with
      | nil =>
          rw [if_pos (by rw [hrsi, hds]; rfl)] at hgoes
          exact ⟨s₁, hgoes, hsp₁, hmem₁, hregs₁⟩
      | cons c' ds' =>
          have hlen : 1 ≤ ds.length := by
            rw [hds]
            exact Nat.succ_pos _
          rw [if_neg (by omega)] at hgoes
          obtain ⟨s', hloop, hsp', hmem', hregs'⟩ := @ih s₁ (by rw [hds]; exact List.cons_ne_nil _ _)
            (by rw [hmem₁, hsp₁]; exact hws.2) (by omega) (by omega)
            (by rw [hregs₁ .rsi (by decide)]; omega)
          rw [← hds]
          exact ⟨s', hgoes.trans hloop, by omega, hmem'.trans hmem₁,
            fun r hr => (hregs' r hr).trans (hregs₁ r hr)⟩

theorem length_digitWords {n : Nat} (hn : n < 2 ^ 64) : (digitWords n).length ≤ 20 := by
  rw [digitWords, List.length_map, Nat.length_toDigits_le_iff (by decide) (by decide)]
  exact hn.trans (by decide)

/-- The registers that `print_dec` changes. -/
def clobbered : List Reg := [.rax, .rcx, .rdx, .rsi, .rdi]

/-- `print_dec` up to its `ret`: 160 bytes of stack are enough for any number. -/
theorem goes_printDec (hlow : userStackTop pid - 4096 + 160 ≤ s.sp) (hhigh : s.sp ≤ userStackTop pid) :
    ∃ s', U.Goes printDec s ((decimal (s.cpu.regs .rdi).toNat).map .putc) 65 s' ∧ s'.sp = s.sp ∧
      (∀ x, s.sp ≤ x ∨ x < userStackTop pid - 4096 → s'.mem x = s.mem x) ∧
      ∀ r ∉ clobbered, s'.cpu.regs r = s.cpu.regs r := by
  set n := (s.cpu.regs .rdi).toNat with hn
  have hlt : n < 2 ^ 64 := (s.cpu.regs .rdi).isLt
  have hlen := length_digitWords hlt
  have hlen' : (digitWords n).length = (Nat.toDigits 10 n).length := List.length_map _
  have hbase : userCodeVa pid + procStackOffset + 4096 = userStackTop pid := rfl
  set s₁ := ((s.set .rsi (s.cpu.regs .rsp)).set .rax (s.cpu.regs .rdi)).set .rcx 10 with hs₁
  have hmovs : U.Goes 50 s [] 53 s₁ :=
    Goes.quiet (goes_instr rfl trivial rfl)
      (Goes.quiet (goes_instr rfl trivial rfl) (goes_instr rfl trivial rfl))
  have hsp₁ : s₁.sp = s.sp := by simp [State.sp, hs₁]
  have hrsi₁ : s₁.cpu.regs .rsi = s.cpu.regs .rsp := by simp [hs₁]
  obtain ⟨s₂, hdigits, hsp₂, hws₂, hmem₂, hregs₂⟩ := @goes_digits _ U s₁ n []
    (by simp [hs₁, hn]) hlt (by simp [hs₁]) trivial (by omega) (by omega)
  obtain ⟨s₃, hprint, hsp₃, hmem₃, hregs₃⟩ := @goes_print _ U s₂ (Nat.toDigits 10 n) []
    (List.length_pos_iff.1 Nat.length_toDigits_pos) hws₂ (by omega) (by omega)
    (by rw [hregs₂ .rsi (by decide), hrsi₁, ← State.sp]; omega)
  refine ⟨s₃, ?_, by omega, fun x hx => ?_, fun r hr => ?_⟩
  · rw [decimal, List.map_map]
    exact hmovs.quiet (hdigits.quiet hprint)
  · rw [hmem₃, hmem₂ x (by omega)]
    rfl
  · by_cases hrsp : r = .rsp
    · rw [hrsp, State.regs_rsp, State.regs_rsp, show s₃.sp = s.sp by omega]
    · simp only [clobbered, List.mem_cons, List.not_mem_nil, or_false, not_or] at hr
      rw [hregs₃ r (by simp [hr, hrsp]), hregs₂ r (by simp [hr, hrsp])]
      simp [hs₁, hr]

/-- **`print_dec` prints the number in `rdi`,** whatever it is, and returns. -/
theorem goes_call_printDec {n : Nat} (hop : U.program.ops[i]? = some (.call printDec))
    (hlow : userStackTop pid - 4096 + 168 ≤ s.sp) (hhigh : s.sp ≤ userStackTop pid)
    (hrdi : (s.cpu.regs .rdi).toNat = n) :
    ∃ s', U.Goes i s ((decimal n).map .putc) (i + 1) s' ∧
      (∀ r ∉ clobbered, s'.cpu.regs r = s.cpu.regs r) ∧
      ∀ x, s.sp ≤ x ∨ x < userStackTop pid - 4096 → s'.mem x = s.mem x := by
  have hbase : userCodeVa pid + procStackOffset + 4096 = userStackTop pid := rfl
  have htop : userStackTop pid ≤ (userWindow pid).high := (userWindow pid).le_high
  have hcall : U.Goes i s [] printDec (s.push (U.addr (i + 1))) :=
    goes_call hop (by omega)
      ⟨(by omega : userStackTop pid - 4096 ≤ s.sp - 8), (by omega : s.sp - 8 + 8 ≤ userStackTop pid)⟩
  have hsp₁ : (s.push (U.addr (i + 1))).sp = s.sp - 8 := State.sp_push (by omega)
  have hmem₁ : (s.push (U.addr (i + 1))).mem = s.mem.store (s.sp - 8) 8 (U.addr (i + 1)).toNat :=
    State.mem_push (by omega)
  have hregs₁ : ∀ r ≠ .rsp, (s.push (U.addr (i + 1))).cpu.regs r = s.cpu.regs r := fun r hr =>
    Cpu.regs_set_of_ne hr
  obtain ⟨s₂, hbody, hsp₂, hmem₂, hregs₂⟩ := @goes_printDec _ U (s.push (U.addr (i + 1))) (by omega)
    (by omega)
  rw [hregs₁ .rdi (by decide), hrdi] at hbody
  have hret : s₂.peek 0 = U.addr (i + 1) := by
    have hload : s₂.mem.load s₂.sp 8 = (U.addr (i + 1)).toNat := by
      rw [hsp₂, ByteMem.load_congr fun x hx _ => hmem₂ x (.inl hx), hmem₁, hsp₁]
      exact ByteMem.load_store_same_of_lt (U.addr (i + 1)).isLt
    rw [State.peek, Nat.mul_zero, Nat.add_zero, hload, BitVec.ofNat_toNat, BitVec.setWidth_eq]
  have hlast : U.Goes 65 s₂ [] (i + 1) (s₂.set .rsp (s₂.cpu.regs .rsp + 8)) :=
    goes_ret rfl ⟨(by omega : userCodeVa pid ≤ s₂.sp), (by omega : s₂.sp + 8 ≤ (userWindow pid).high)⟩ hret
  refine ⟨s₂.set .rsp (s₂.cpu.regs .rsp + 8), ?_, fun r hr => ?_, fun x hx => ?_⟩
  · have hall := hcall.quiet (hbody.trans hlast)
    rwa [List.append_nil] at hall
  · rw [State.regs_set]
    split_ifs with hrsp
    · rw [hrsp, State.regs_rsp, State.regs_rsp, show s₂.sp = s.sp - 8 by omega]
      bv_omega
    · rw [hregs₂ r hr, hregs₁ r hrsp]
  · rw [State.mem_set, hmem₂ x (by omega), hmem₁, ByteMem.store_of_not_mem (by omega)]

theorem does_printDec {n : Nat} (hop : U.program.ops[i]? = some (.call printDec))
    (hsp : s.sp = userStackTop pid) (hrdi : (s.cpu.regs .rdi).toNat = n) :
    ∃ s', U.Does i s ((decimal n).map .putc) (i + 1) s' := by
  have hbase : userCodeVa pid + procStackOffset + 4096 = userStackTop pid := rfl
  obtain ⟨s', hgoes, hregs, hmem⟩ := @goes_call_printDec _ U s i n hop (by omega) (by omega) hrdi
  refine ⟨s', hgoes, fun r hr => hregs r ?_, hmem⟩
  revert r
  decide

/-! ## The main program -/

theorem does_delay_once :
    U.Does 43 s [] (if s.cpu.regs .rbx = 1 then 45 else 43) (s.setResult .rbx (s.cpu.regs .rbx - 1)) := by
  have hdec : U.Does 43 s [] 44 (s.setResult .rbx (s.cpu.regs .rbx - 1)) :=
    ⟨goes_instr rfl trivial rfl, keeps_setResult (by decide) _⟩
  have hjnz := @does_jnz _ U (s.setResult .rbx (s.cpu.regs .rbx - 1)) 44 43 rfl
  simp only [State.zeroFlag_setResult, decide_eq_true_eq, sub_eq_zero] at hjnz
  exact hdec.quiet hjnz

theorem does_delay {n : Nat} (hn : n + 1 < 2 ^ 64) (hrbx : s.cpu.regs .rbx = BitVec.ofNat 64 (n + 1)) :
    ∃ s', U.Does 43 s [] 45 s' := by
  induction n generalizing s with
  | zero =>
      have honce := @does_delay_once _ U s
      rw [if_pos (show s.cpu.regs .rbx = 1 from hrbx)] at honce
      exact ⟨_, honce⟩
  | succ n ih =>
      have honce := @does_delay_once _ U s
      rw [if_neg (by rw [hrbx]; bv_omega)] at honce
      have hpred : s.cpu.regs .rbx - 1 = BitVec.ofNat 64 (n + 1) := by
        rw [hrbx]
        bv_omega
      rw [hpred] at honce
      obtain ⟨s', hloop⟩ := @ih (s.setResult .rbx (BitVec.ofNat 64 (n + 1))) (by omega) (by simp)
      exact ⟨s', honce.quiet hloop⟩

/-- What holds in the main program once the pid is known. -/
structure Main (U : UserImage pid) (s : State) : Prop where
  sp : s.sp = userStackTop pid
  loaded : U.Loaded s.mem
  r12 : s.cpu.regs .r12 = BitVec.ofNat 64 pid

theorem Loaded.congr {m m' : ByteMem} (h : U.Loaded m)
    (hm : ∀ x, userCodeVa pid ≤ x → x < userStackTop pid - 4096 → m' x = m x) : U.Loaded m' := by
  have hb := U.banner_mem
  have ha := U.alive_mem
  refine ⟨fun i hi => ?_, fun i hi => ?_⟩
  · have hi' : i < 5 := hi
    rw [h.1 i hi, hm _ (by omega) (by omega)]
  · have hi' : i < 8 := hi
    rw [h.2 i hi, hm _ (by omega) (by omega)]

theorem Loaded.keeps (h : U.Loaded s.mem) (hk : Keeps pid s s') : U.Loaded s'.mem :=
  Loaded.congr h fun x _ hx => hk.mem x (.inr hx)

theorem Main.keeps (h : U.Main s) (hk : Keeps pid s s') : U.Main s' :=
  ⟨hk.sp.trans h.sp, Loaded.keeps h.loaded hk, (hk.regs .r12 (by decide)).trans h.r12⟩

theorem does_string {b a : Nat} {bs : List UInt8}
    (hload : [Op.instr (.mov .rbx (.imm (BitVec.ofNat 64 a))), .instr (.mov .rcx (.imm (BitVec.ofNat 64 bs.length)))]
      <+: U.program.ops.drop b)
    (hops : putsCode (b + 2) <+: U.program.ops.drop (b + 2)) (hne : bs ≠ [])
    (hlow : userCodeVa pid ≤ a) (hhigh : a + bs.length ≤ userStackTop pid) (hlt : userStackTop pid < 2 ^ 64)
    (hmem : s.mem.Holds a bs) : ∃ s', U.Does b s (bs.map .putc) (b + 8) s' := by
  have hrbx : U.Does b s [] (b + 1) (s.set .rbx (BitVec.ofNat 64 a)) :=
    does_mov (@op_at _ U b 0 _ _ hload rfl) (by decide)
  set s₁ := s.set .rbx (BitVec.ofNat 64 a) with hs₁
  have hrcx : U.Does (b + 1) s₁ [] (b + 2) (s₁.set .rcx (BitVec.ofNat 64 bs.length)) :=
    does_mov (@op_at _ U b 1 _ _ hload rfl) (by decide)
  have htop : userStackTop pid ≤ userCodeVa pid + procStride := (userWindow pid).le_high
  obtain ⟨s', hputs⟩ := does_puts hops hne hlow (hhigh.trans htop) (by omega)
    (show (s₁.set .rcx (BitVec.ofNat 64 bs.length)).cpu.regs .rbx = BitVec.ofNat 64 a by simp [hs₁])
    (by simp) hmem
  exact ⟨s', hrbx.quiet (hrcx.quiet hputs)⟩

theorem userStackTop_lt (hpid : pid < maxProcesses) : userStackTop pid < 2 ^ 64 := by
  simp only [userStackTop, procBase, procStride, procStackOffset, maxProcesses] at hpid ⊢
  omega

/-- **One line of the main loop.** -/
theorem does_life (hpid : pid < maxProcesses) {n : Nat} (h : U.Main s) (hn : n ≤ 5)
    (hr13 : s.cpu.regs .r13 = BitVec.ofNat 64 n) :
    ∃ s', U.Does 20 s ((aliveLine pid (6 - n)).map .putc ++ [.yield]) 45 s' := by
  have hpid' : pid < 16 := hpid
  obtain ⟨s₁, hp⟩ : ∃ s₁, U.Does 20 s [.putc 112] 23 s₁ := @does_putc _ U 20 112 ⟨_, rfl⟩ s
  -- the pid
  have hrdi : U.Does 23 s₁ [] 24 (s₁.set .rdi (s₁.cpu.regs .r12)) :=
    @does_mov _ U s₁ 23 .rdi (.reg .r12) rfl (by decide)
  have h₁ := (h.keeps hp.2).keeps hrdi.2
  obtain ⟨s₂, hdec⟩ := @does_printDec _ U _ 24 pid rfl h₁.sp
    (by rw [State.regs_set, if_pos rfl, (h.keeps hp.2).r12, BitVec.toNat_ofNat, Nat.mod_eq_of_lt (by omega)])
  have h₂ := h₁.keeps hdec.2
  -- ": alive "
  obtain ⟨s₃, halive⟩ := @does_string _ U s₂ 25 U.alive aliveText ⟨_, rfl⟩ ⟨_, rfl⟩ (List.cons_ne_nil _ _)
    U.alive_mem.1 (U.alive_mem.2.trans (Nat.sub_le _ _)) (userStackTop_lt hpid) h₂.loaded.2
  have h₃ := h₂.keeps halive.2
  have hr13₃ : s₃.cpu.regs .r13 = BitVec.ofNat 64 n := by
    rw [(hp.trans (hrdi.trans (hdec.trans halive))).2.regs .r13 (by decide), hr13]
  -- the number of the line
  obtain ⟨s₄, hcount, hrdi₄⟩ : ∃ s₄, U.Does 33 s₃ [] 36 s₄ ∧ s₄.cpu.regs .rdi = 6 - s₃.cpu.regs .r13 := by
    have hrax : U.Does 33 s₃ [] 34 (s₃.set .rax 6) := @does_mov _ U s₃ 33 .rax (.imm 6) rfl (by decide)
    have hsub : U.Does 34 (s₃.set .rax 6) [] 35 ((s₃.set .rax 6).setResult .rax (6 - s₃.cpu.regs .r13)) :=
      ⟨goes_instr rfl trivial rfl, keeps_setResult (by decide) _⟩
    have hmov := @does_mov _ U ((s₃.set .rax 6).setResult .rax (6 - s₃.cpu.regs .r13)) 35 .rdi (.reg .rax) rfl
      (by decide)
    exact ⟨_, hrax.quiet (hsub.quiet hmov), by simp [Src.val]⟩
  have h₄ := h₃.keeps hcount.2
  obtain ⟨s₅, hnum⟩ := @does_printDec _ U s₄ 36 (6 - n) rfl h₄.sp (by rw [hrdi₄, hr13₃]; bv_omega)
  -- the end of the line, SYS_YIELD and the delay
  obtain ⟨s₆, hnl⟩ : ∃ s₆, U.Does 37 s₅ [.putc 10] 40 s₆ := @does_putc _ U 37 10 ⟨_, rfl⟩ s₅
  have hrax : U.Does 40 s₆ [] 41 (s₆.set .rax 4) := @does_mov _ U s₆ 40 .rax (.imm 4) rfl (by decide)
  have hyield : U.Does 41 (s₆.set .rax 4) [.yield] 42 (s₆.set .rax 4) :=
    ⟨goes_yield rfl (by simp), .refl _⟩
  have hrbx : U.Does 42 (s₆.set .rax 4) [] 43 ((s₆.set .rax 4).set .rbx 2000000) :=
    @does_mov _ U (s₆.set .rax 4) 42 .rbx (.imm 2000000) rfl (by decide)
  obtain ⟨s₇, hdelay⟩ := @does_delay _ U ((s₆.set .rax 4).set .rbx 2000000) 1999999 (by decide) (by simp)
  refine ⟨s₇, ?_⟩
  have hall := hp.trans (hrdi.quiet (hdec.trans (halive.trans (hcount.quiet (hnum.trans (hnl.trans
    (hrax.quiet (hyield.trans (hrbx.quiet hdelay)))))))))
  simpa only [aliveLine, List.map_append, List.append_assoc, List.map_singleton, List.append_nil] using hall

theorem goes_count : U.Goes 45 s [] (if s.cpu.regs .r13 = 1 then 47 else 20)
    (s.setResult .r13 (s.cpu.regs .r13 - 1)) := by
  have hdec : U.Goes 45 s [] 46 (s.setResult .r13 (s.cpu.regs .r13 - 1)) := goes_instr rfl trivial rfl
  have hjnz := @goes_jnz _ U (s.setResult .r13 (s.cpu.regs .r13 - 1)) 46 20 rfl
  simp only [State.zeroFlag_setResult, decide_eq_true_eq, sub_eq_zero] at hjnz
  exact hdec.quiet hjnz

/-- The last `n` lines. -/
def lines (pid n : Nat) : List Sys :=
  (List.range' (6 - n) n).flatMap fun i => (aliveLine pid i).map .putc ++ [.yield]

/-- **The main loop,** with `n + 1` lines to go. -/
theorem goes_lines (hpid : pid < maxProcesses) {n : Nat} (h : U.Main s) (hn : n + 1 ≤ 5)
    (hr13 : s.cpu.regs .r13 = BitVec.ofNat 64 (n + 1)) :
    ∃ s', U.Goes 20 s (lines pid (n + 1)) 47 s' := by
  induction n generalizing s with
  | zero =>
      obtain ⟨s₁, hlife⟩ := does_life hpid h hn hr13
      have hcount := @goes_count _ U s₁
      rw [if_pos (by rw [hlife.2.regs .r13 (by decide), hr13]; rfl)] at hcount
      have hall := hlife.1.trans hcount
      rw [List.append_nil] at hall
      exact ⟨_, by simpa [lines] using hall⟩
  | succ n ih =>
      obtain ⟨s₁, hlife⟩ := does_life hpid h hn hr13
      have hr13₁ := (hlife.2.regs .r13 (by decide)).trans hr13
      have hcount := @goes_count _ U s₁
      rw [if_neg (by rw [hr13₁]; bv_omega)] at hcount
      have h₁ := h.keeps hlife.2
      set s₂ := s₁.setResult .r13 (s₁.cpu.regs .r13 - 1) with hs₂
      have h₂ : U.Main s₂ := ⟨h₁.sp, h₁.loaded, h₁.r12⟩
      obtain ⟨s', hrest⟩ := ih h₂ (by omega) (by
        rw [hs₂, State.regs_setResult, if_pos rfl, hr13₁]
        bv_omega)
      refine ⟨s', ?_⟩
      have hall := hlife.1.trans (hcount.quiet hrest)
      rw [lines, List.range'_succ, List.flatMap_cons]
      rw [lines, show 6 - (n + 1) = 6 - (n + 1 + 1) + 1 by omega] at hall
      exact hall

theorem goes_banner (hpid : pid < maxProcesses) (hsp : s.sp = userStackTop pid) (hload : U.Loaded s.mem) :
    ∃ s', U.Goes 0 s (bannerText.map .putc) 12 s' ∧ U.Main s' ∧
      (s'.cpu.regs .rdi) = BitVec.ofNat 64 pid := by
  obtain ⟨s₁, hbanner⟩ := @does_string _ U s 0 U.banner bannerText ⟨_, rfl⟩ ⟨_, rfl⟩ (List.cons_ne_nil _ _)
    U.banner_mem.1 (U.banner_mem.2.trans (Nat.sub_le _ _)) (userStackTop_lt hpid) hload.1
  have hrax : U.Does 8 s₁ [] 9 (s₁.set .rax 3) := @does_mov _ U s₁ 8 .rax (.imm 3) rfl (by decide)
  have hgetpid : U.Goes 9 (s₁.set .rax 3) [] 10 ((s₁.set .rax 3).set .rax (BitVec.ofNat 64 pid)) :=
    goes_getpid rfl (by simp)
  have hkeep : Keeps pid s ((s₁.set .rax 3).set .rax (BitVec.ofNat 64 pid)) :=
    (hbanner.2.trans hrax.2).trans (keeps_set (by decide) _)
  set s₂ := (s₁.set .rax 3).set .rax (BitVec.ofNat 64 pid) with hs₂
  set s₃ := (s₂.set .r12 (s₂.cpu.regs .rax)).set .rdi (s₂.cpu.regs .rax) with hs₃
  have hmovs : U.Goes 10 s₂ [] 12 s₃ := Goes.quiet (goes_instr rfl trivial rfl) (goes_instr rfl trivial rfl)
  have hrax₂ : s₂.cpu.regs .rax = BitVec.ofNat 64 pid := by simp [hs₂]
  refine ⟨s₃, ?_, ⟨hkeep.sp.trans hsp, (Loaded.keeps hload hkeep : U.Loaded s₂.mem), ?_⟩, ?_⟩
  · have hall := hbanner.1.trans (hrax.1.quiet (hgetpid.quiet hmovs))
    rwa [List.append_nil] at hall
  · rw [hs₃, State.regs_set, if_neg (by decide), State.regs_set, if_pos rfl, hrax₂]
  · rw [hs₃, State.regs_set, if_pos rfl, hrax₂]

theorem exits : ∃ u, Exec (User.step U.program pid) (U.here 47 s) [.exit] u ∧ u.exited = true := by
  have hrax : U.Goes 47 s [] 48 (s.set .rax 2) := goes_instr rfl trivial rfl
  refine ⟨⟨(s.set .rax 2).goto (U.addr 49), true⟩, Exec.quiet hrax (Exec.single ?_), rfl⟩
  rw [step_int rfl, User.syscall]
  rfl

end UserImage

theorem UserImage.exec_exit {pid : Nat} (hpid : pid < maxProcesses) (U : UserImage pid) {m : ByteMem}
    (hload : U.Loaded m) :
    ∃ u, Exec (User.step U.program pid) (User.initial pid m) (expectedTrace pid) u ∧ u.exited = true := by
  have hpid' : pid < 16 := hpid
  have hstart : User.initial pid m = U.here 0 ⟨initialCpu pid, m⟩ := by
    rw [UserImage.here, U.addr_zero]
    rfl
  have hsp : (⟨initialCpu pid, m⟩ : State).sp = userStackTop pid := by
    change (BitVec.ofNat 64 (userStackTop pid)).toNat = _
    rw [BitVec.toNat_ofNat, Nat.mod_eq_of_lt (UserImage.userStackTop_lt hpid)]
  obtain ⟨s₁, hbanner, h₁, hrdi⟩ := UserImage.goes_banner hpid hsp hload
  obtain ⟨s₂, hnum⟩ := @UserImage.does_printDec _ U s₁ 12 pid rfl h₁.sp
    (by rw [hrdi, BitVec.toNat_ofNat, Nat.mod_eq_of_lt (by omega)])
  obtain ⟨s₃, hcolon⟩ : ∃ s₃, U.Does 13 s₂ [.putc 58] 16 s₃ := @UserImage.does_putc _ U 13 58 ⟨_, rfl⟩ s₂
  obtain ⟨s₄, hblank⟩ : ∃ s₄, U.Does 16 s₃ [.putc 32] 19 s₄ := @UserImage.does_putc _ U 16 32 ⟨_, rfl⟩ s₃
  have h₄ := ((h₁.keeps hnum.2).keeps hcolon.2).keeps hblank.2
  have hr13 : U.Goes 19 s₄ [] 20 (s₄.set .r13 5) := UserImage.goes_instr rfl trivial rfl
  have h₅ : U.Main (s₄.set .r13 5) := ⟨h₄.sp, h₄.loaded, h₄.r12⟩
  obtain ⟨s₅, hlines⟩ := @UserImage.goes_lines _ U _ hpid 4 h₅ (by decide) (by simp)
  obtain ⟨u, hexit, hu⟩ := @UserImage.exits _ U s₅
  refine ⟨u, ?_, hu⟩
  have hall := Exec.trans (hbanner.trans (hnum.1.trans (hcolon.1.trans (hblank.1.trans (hr13.quiet hlines)))))
    hexit
  have htrace : expectedTrace pid = bannerText.map .putc ++ ((decimal pid).map .putc ++ ([.putc 58] ++
      ([.putc 32] ++ UserImage.lines pid 5))) ++ [.exit] := by
    simp only [expectedTrace, List.map_append, List.append_assoc]
    rfl
  rw [hstart, htrace]
  exact hall

theorem User.step_of_exited {P : Program} {pid : Nat} {u : User} (h : u.exited = true) :
    User.step P pid u = none := if_pos h

theorem User.step_some {P : Program} {pid : Nat} {u u' : User} {es : List Sys}
    (h : User.step P pid u = some (u', es)) :
    ∃ s out, P.step (userWindow pid) u.state = some (s, out) ∧
      ((out = none ∧ u' = ⟨s, false⟩ ∧ es = []) ∨ (out = some 0x80 ∧ User.syscall pid s = some (u', es))) := by
  rw [User.step] at h
  split_ifs at h
  split at h
  · cases h
  · next s hs =>
      obtain ⟨rfl, rfl⟩ := Prod.mk.inj (Option.some.inj h)
      exact ⟨s, none, hs, .inl ⟨rfl, rfl, rfl⟩⟩
  · next s n hs =>
      split_ifs at h with hn
      exact ⟨s, some n, hs, .inr ⟨by rw [hn], h⟩⟩

/-- **Every run of the program is a part of the complete one.** The next step of a process that has not
exited does not fail. -/
theorem UserImage.exec_rest {pid : Nat} (hpid : pid < maxProcesses) (U : UserImage pid) {m : ByteMem}
    (hload : U.Loaded m) {es : List Sys} {u : User}
    (hexec : Exec (User.step U.program pid) (User.initial pid m) es u) :
    ∃ rest, expectedTrace pid = es ++ rest ∧ (u.exited = true → rest = []) ∧
      (u.exited = false → (User.step U.program pid u).isSome) := by
  obtain ⟨v, hfull, hv⟩ := U.exec_exit hpid hload
  obtain ⟨rest, hrest, hlast⟩ := hfull.rest_of_stop (User.step_of_exited hv) hexec
  refine ⟨rest, hrest, fun hu => ?_, fun hu => ?_⟩
  · cases hlast with
    | refl => rfl
    | head hstep _ =>
        rw [User.step_of_exited hu] at hstep
        cases hstep
  · cases hlast with
    | refl => exact absurd (hu.symm.trans hv) (by simp)
    | head hstep _ =>
        rw [hstep]
        rfl

/-- **`print_dec` prints any number.** Called from anywhere with 168 bytes of the stack page free, it prints the
64-bit number in `rdi` in decimal and returns. It changes five registers, and of the memory only the free
part of the stack page. -/
theorem printDec_spec {pid : Nat} (U : UserImage pid) {s : State} {i : Nat}
    (hop : U.program.ops[i]? = some (.call printDec))
    (hlow : userStackTop pid - 4096 + 168 ≤ s.sp) (hhigh : s.sp ≤ userStackTop pid) :
    ∃ s', Exec (User.step U.program pid) (U.here i s) ((decimal (s.cpu.regs .rdi).toNat).map .putc)
        (U.here (i + 1) s') ∧
      (∀ r ∉ UserImage.clobbered, s'.cpu.regs r = s.cpu.regs r) ∧
      ∀ x, s.sp ≤ x ∨ x < userStackTop pid - 4096 → s'.mem x = s.mem x :=
  UserImage.goes_call_printDec hop hlow hhigh rfl

/-- One byte for each instruction, and the strings behind them. -/
def sampleImage (pid : Nat) : UserImage pid where
  banner := userCodeVa pid + 256
  alive := userCodeVa pid + 512
  addr i := BitVec.ofNat 64 (userCodeVa pid) + BitVec.ofNat 64 i
  addr_zero := BitVec.add_zero _
  addr_inj := by
    intro i j hi hj h
    have hij := add_left_cancel h
    bv_omega
  banner_mem := by
    rw [userStackTop, userCodeVa, procStackOffset]
    omega
  alive_mem := by
    rw [userStackTop, userCodeVa, procStackOffset]
    omega

/-- The second call, with `2 ^ 64 - 1` in `rdi`. -/
theorem printDec_spec_max :
    ∃ s', Exec (User.step (sampleImage 1).program 1)
        ((sampleImage 1).here 24 ⟨(initialCpu 1).set .rdi (-1), fun _ => 0⟩)
        (("18446744073709551615".toList.map Char.toUInt8).map .putc) ((sampleImage 1).here 25 s') := by
  obtain ⟨s', hexec, -⟩ := @printDec_spec 1 (sampleImage 1) ⟨(initialCpu 1).set .rdi (-1), fun _ => 0⟩ 24 rfl
    (by decide) (by decide)
  exact ⟨s', hexec⟩

end Rolnix
