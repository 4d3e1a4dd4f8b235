import Ggmk.Lib.Reach
import Ggmk.Lib.StackMachine

/-! The interrupt path of `idt_stubs.S`: the stub of a vector, the common part that saves the
registers around `isr_handler`, and the return. Which vectors push an error code is the CPU's
convention `cpuErr`; the stubs have their own. -/
namespace Ggmk.Interrupt
open Guarded StackMachine Machine ByteMem

/-- The vectors of `ISR_ERR`, for which the stub expects an error code of the CPU. -/
def isrErr (vec : ℕ) : Bool := vec ∈ [8, 10, 11, 12, 13, 14, 17, 21, 30]

/-- The stub of a vector up to its jump; the others push a dummy error code. -/
def isrStub (vec : ℕ) : List Instr :=
  (if isrErr vec then [] else [.pushImm 0]) ++ [.pushImm (UInt64.ofNat vec)]

/-- The registers in the order in which they are saved. -/
def savedRegs : List Reg :=
  [.rax, .rbx, .rcx, .rdx, .rsi, .rdi, .rbp, .r8, .r9, .r10, .r11, .r12, .r13, .r14, .r15]

def isrEntry : List Instr := savedRegs.map .push ++ [.mov .rdi .rsp]

def isrExit : List Instr := savedRegs.reverse.map .pop ++ [.addImm .rsp 16, .iretq]

/-- `interrupt_frame_t`. -/
structure InterruptFrame where
  (r15 r14 r13 r12 r11 r10 r9 r8 : UInt64)
  (rbp rdi rsi rdx rcx rbx rax : UInt64)
  vector : UInt64
  errorCode : UInt64
  rip : UInt64
  cs : UInt64
  rflags : UInt64
  rsp : UInt64
  ss : UInt64

/-- The fields in the order of memory. -/
def InterruptFrame.words (f : InterruptFrame) : List UInt64 :=
  [f.r15, f.r14, f.r13, f.r12, f.r11, f.r10, f.r9, f.r8, f.rbp, f.rdi, f.rsi, f.rdx, f.rcx, f.rbx,
    f.rax, f.vector, f.errorCode, f.rip, f.cs, f.rflags, f.rsp, f.ss]

/-- What the handler should be told about an interrupt of `s`. -/
def frameOf (s : Machine) (vec : ℕ) (errorCode : UInt64) : InterruptFrame where
  r15 := s.regs .r15
  r14 := s.regs .r14
  r13 := s.regs .r13
  r12 := s.regs .r12
  r11 := s.regs .r11
  r10 := s.regs .r10
  r9 := s.regs .r9
  r8 := s.regs .r8
  rbp := s.regs .rbp
  rdi := s.regs .rdi
  rsi := s.regs .rsi
  rdx := s.regs .rdx
  rcx := s.regs .rcx
  rbx := s.regs .rbx
  rax := s.regs .rax
  vector := UInt64.ofNat vec
  errorCode := errorCode
  rip := s.rip
  cs := s.cs
  rflags := s.rflags
  rsp := s.regs .rsp
  ss := s.ss

section Path
variable (isrHandler : Machine → Machine) (ra gate : UInt64) (cpuErr : ℕ → Bool)

/-- The CPU's part. -/
def delivered (vec : ℕ) (errorCode : UInt64) (s : Machine) : Machine :=
  s.deliver (if cpuErr vec then some errorCode else none) 0x08 gate

/-- The state in which `isr_handler` is entered. -/
def handlerCall (vec : ℕ) (errorCode : UInt64) (s : Machine) : Machine :=
  (exec isrHandler ra (delivered gate cpuErr vec errorCode s) (isrStub vec ++ isrEntry)).push ra

/-- An interrupt from its delivery to the `iretq`. -/
def interrupt (vec : ℕ) (errorCode : UInt64) (s : Machine) : Machine :=
  exec isrHandler ra (delivered gate cpuErr vec errorCode s)
    (isrStub vec ++ isrEntry ++ [.call] ++ isrExit)

end Path

variable {isrHandler : Machine → Machine} {ra gate : UInt64} {cpuErr : ℕ → Bool} {s : Machine}
  {vec : ℕ} {err : UInt64} {lo hi room : ℕ} {K : Set ℕ}

theorem interrupt_eq : interrupt isrHandler ra gate cpuErr vec err s =
    exec isrHandler ra (isrHandler (handlerCall isrHandler ra gate cpuErr vec err s)) isrExit := by
  rw [interrupt, exec_append, exec_append]
  rfl

/-- What the stub finds and adds below the saved registers. -/
def pushed (cpuErr : ℕ → Bool) (vec : ℕ) (err : UInt64) (s : Machine) : List UInt64 :=
  (if isrErr vec then [] else [0]) ++ ((if cpuErr vec then [err] else []) ++ s.saved)

theorem pushed_length_le (cpuErr : ℕ → Bool) (vec : ℕ) (err : UInt64) (s : Machine) :
    (pushed cpuErr vec err s).length ≤ 7 := by
  unfold pushed saved
  split <;> split <;> simp

theorem exec_stub (s : Machine) : exec isrHandler ra s (isrStub vec) =
    s.pushes ((if isrErr vec then [] else [0]) ++ [UInt64.ofNat vec]) := by
  unfold isrStub
  split <;> rfl

variable (isrHandler ra gate cpuErr vec err) in
/-- The CPU and the stub. -/
theorem stub_spec (h : 64 ≤ s.sp) :
    (exec isrHandler ra (delivered gate cpuErr vec err s) (isrStub vec)).sp =
        s.sp - s.sp % 16 - 8 * (1 + (pushed cpuErr vec err s).length) ∧
      Holds (exec isrHandler ra (delivered gate cpuErr vec err s) (isrStub vec)).mem
        (exec isrHandler ra (delivered gate cpuErr vec err s) (isrStub vec)).sp
        (UInt64.ofNat vec :: pushed cpuErr vec err s) ∧
      (∀ b, b < s.sp - 96 ∨ s.sp ≤ b →
        (exec isrHandler ra (delivered gate cpuErr vec err s) (isrStub vec)).mem b = s.mem b) ∧
      ∀ r, r ≠ .rsp →
        (exec isrHandler ra (delivered gate cpuErr vec err s) (isrStub vec)).regs r = s.regs r := by
  have hcode : (if cpuErr vec then some err else none).toList = if cpuErr vec then [err] else [] := by
    split <;> rfl
  have hlenCode : (if cpuErr vec then [err] else []).length ≤ 1 := by split <;> simp
  have hlenDummy : (if isrErr vec then ([] : List UInt64) else [0]).length ≤ 1 := by split <;> simp
  have hlen : (pushed cpuErr vec err s).length =
      (if isrErr vec then ([] : List UInt64) else [0]).length +
        ((if cpuErr vec then [err] else []).length + 5) := by
    rw [pushed, List.length_append, List.length_append]
    rfl
  obtain ⟨hsp, hholds, hmem, hregs⟩ :=
    pushState_spec (if cpuErr vec then some err else none) h
  rw [hcode, ← deliver_sp _ 0x08 gate, ← deliver_mem _ 0x08 gate] at hholds
  rw [hcode, ← deliver_sp _ 0x08 gate] at hsp
  rw [← deliver_mem _ 0x08 gate] at hmem
  rw [← deliver_regs _ 0x08 gate] at hregs
  rw [exec_stub, delivered]
  generalize s.deliver (if cpuErr vec then some err else none) 0x08 gate = d at *
  have hroom : 8 * ((if isrErr vec then [] else [0]) ++ [UInt64.ofNat vec]).length ≤ d.sp := by
    rw [List.length_append, List.length_singleton]
    omega
  obtain ⟨hsp', hholds', hmem', hregs', -⟩ := pushes_spec hroom hholds
  rw [List.length_append, List.length_singleton] at hsp' hmem'
  refine ⟨by omega, ?_, fun b hb => (hmem' b (by omega)).trans (hmem b (by omega)),
    fun r hr => (hregs' r hr).trans (hregs r hr)⟩
  rw [List.reverse_append, List.append_assoc] at hholds'
  have hrev : (if isrErr vec then ([] : List UInt64) else [0]).reverse =
      if isrErr vec then [] else [0] := by
    split <;> rfl
  rw [hrev] at hholds'
  exact hholds'

variable (isrHandler ra gate cpuErr vec err) in
/-- The state in which the handler is entered. -/
theorem handlerCall_spec (h : 256 ≤ s.sp) :
    (handlerCall isrHandler ra gate cpuErr vec err s).sp + 8 =
        s.sp - s.sp % 16 - 8 * (16 + (pushed cpuErr vec err s).length) ∧
      ((handlerCall isrHandler ra gate cpuErr vec err s).regs .rdi).toNat =
        (handlerCall isrHandler ra gate cpuErr vec err s).sp + 8 ∧
      Holds (handlerCall isrHandler ra gate cpuErr vec err s).mem
        ((handlerCall isrHandler ra gate cpuErr vec err s).sp + 8)
        (savedRegs.reverse.map s.regs ++ UInt64.ofNat vec :: pushed cpuErr vec err s) ∧
      ∀ b, b < s.sp - 256 ∨ s.sp ≤ b →
        (handlerCall isrHandler ra gate cpuErr vec err s).mem b = s.mem b := by
  obtain ⟨hsp, hholds, hmem, hregs⟩ :=
    stub_spec isrHandler ra gate cpuErr vec err (s := s) (by omega)
  have hlen := pushed_length_le cpuErr vec err s
  unfold handlerCall
  rw [exec_append]
  generalize exec isrHandler ra (delivered gate cpuErr vec err s) (isrStub vec) = b at *
  have hmap : savedRegs.map b.regs = savedRegs.map s.regs :=
    List.map_congr_left fun r hr => hregs r fun heq => absurd (heq ▸ hr) (by decide)
  have hpush : exec isrHandler ra b isrEntry = (b.pushes (savedRegs.map s.regs)).setReg .rdi
      ((b.pushes (savedRegs.map s.regs)).regs .rsp) := by
    rw [isrEntry, exec_append, exec_push (by decide), hmap]
    rfl
  have hroom : 8 * (savedRegs.map s.regs).length ≤ b.sp := by
    show 8 * 15 ≤ b.sp
    omega
  obtain ⟨hsp', hholds', hmem', -, -⟩ := pushes_spec hroom hholds
  rw [hpush]
  generalize b.pushes (savedRegs.map s.regs) = c at *
  have hfifteen : (savedRegs.map s.regs).length = 15 := rfl
  rw [hfifteen] at hsp' hmem'
  have hrdi : (c.setReg .rdi (c.regs .rsp)).sp = c.sp :=
    congrArg UInt64.toNat (setReg_of_ne _ (by decide))
  have h8 : 8 ≤ (c.setReg .rdi (c.regs .rsp)).sp := by omega
  have hpush8 := push_sp h8 ra
  refine ⟨by omega, ?_, ?_, fun b' hb => ?_⟩
  · rw [push_regs _ (by decide), hpush8, hrdi]
    rw [setReg_self, Nat.sub_add_cancel (by omega)]
    rfl
  · have hstack : Holds (c.setReg .rdi (c.regs .rsp)).mem (c.setReg .rdi (c.regs .rsp)).sp
        ((savedRegs.map s.regs).reverse ++ UInt64.ofNat vec :: pushed cpuErr vec err s) := by
      rw [hrdi]
      exact hholds'
    have hall := push_holds h8 hstack ra
    rw [List.map_reverse]
    exact hall.2
  · rw [push_mem h8, writeLe_of_notMem (by omega)]
    exact (hmem' b' (by omega)).trans (hmem b' (by omega))

/-! ## The return -/

theorem mem_savedRegs {r : Reg} (hr : r ≠ .rsp) : r ∈ savedRegs.reverse := by
  cases r <;> first | decide | exact absurd rfl hr

variable (isrHandler ra) in
/-- The saved registers come back, and `iretq` finds what lies above the vector and the error code. -/
theorem exec_isrExit {f : Reg → UInt64} {v w : UInt64} {rest : List UInt64}
    (h : s.sp + 136 < 2 ^ 64)
    (hs : Holds s.mem s.sp (savedRegs.reverse.map f ++ v :: w :: rest)) :
    ∃ y : Machine, exec isrHandler ra s isrExit = y.iretq ∧ y.sp = s.sp + 136 ∧ y.mem = s.mem ∧
      Holds y.mem y.sp rest ∧ ∀ r, r ≠ .rsp → y.regs r = f r := by
  have hlen : savedRegs.reverse.length = 15 := rfl
  obtain ⟨hsp, hin, -, hmem, -⟩ :=
    pops_spec f (by decide) (by decide) (by rw [hlen]; omega) hs
  have habove := (holds_append.mp hs).2
  rw [List.length_map, hlen] at habove
  rw [hlen] at hsp
  have hexec : exec isrHandler ra s isrExit =
      ((s.pops savedRegs.reverse).setReg .rsp ((s.pops savedRegs.reverse).regs .rsp + 16)).iretq := by
    rw [isrExit, exec_append, exec_pop]
    rfl
  rw [hexec]
  generalize s.pops savedRegs.reverse = x at *
  have hadd : (x.setReg .rsp (x.regs .rsp + 16)).sp = s.sp + 136 := by
    rw [sp, setReg_self, UInt64.toNat_add]
    exact (Nat.mod_eq_of_lt (show x.sp + 16 < 2 ^ 64 by omega)).trans (by omega)
  refine ⟨_, rfl, hadd, hmem, ?_, fun r hr => ?_⟩
  · rw [hadd]
    show Holds x.mem _ _
    rw [hmem]
    exact habove.2.2
  · rw [setReg_of_ne _ hr]
    exact hin r (mem_savedRegs hr)

variable (ra gate cpuErr vec err) in
/-- The handler finds its frame, and it is there when the handler has returned. -/
theorem handler_returns (hK : ∀ b ∈ K, b < lo ∨ hi ≤ b) (hret : Returns isrHandler lo room K)
    (hroom : lo + room + 256 ≤ s.sp) (hhi : s.sp ≤ hi) :
    ∃ x : Machine, x = isrHandler (handlerCall isrHandler ra gate cpuErr vec err s) ∧
      x.sp + 136 < 2 ^ 64 ∧
      Holds x.mem x.sp
        (savedRegs.reverse.map s.regs ++ UInt64.ofNat vec :: pushed cpuErr vec err s) ∧
      x.sp + 8 * (16 + (pushed cpuErr vec err s).length) ≤ s.sp ∧
      ∀ b, b ∉ K → (b < lo ∨ s.sp ≤ b) → x.mem b = s.mem b := by
  obtain ⟨hsp, -, hholds, hmem⟩ :=
    handlerCall_spec isrHandler ra gate cpuErr vec err (s := s) (by omega)
  have hlen := pushed_length_le cpuErr vec err s
  have hfit : s.sp < 2 ^ 64 := (s.regs .rsp).toNat_lt
  have hfive : 5 ≤ (pushed cpuErr vec err s).length := by
    rw [pushed, List.length_append, List.length_append]
    exact (Nat.le_add_left 5 _).trans (Nat.le_add_left _ _)
  generalize handlerCall isrHandler ra gate cpuErr vec err s = c at *
  obtain ⟨hsp', hmem'⟩ := hret c (by omega) (by omega)
  refine ⟨_, rfl, by omega, ?_, by omega, fun b hb hout => ?_⟩
  · rw [hsp']
    refine hholds.congr fun b hb hb' => hmem' b (fun hbK => ?_) (.inr (by omega))
    rw [List.length_append, List.length_cons, List.length_map] at hb'
    have hfifteen : savedRegs.reverse.length = 15 := rfl
    rcases hK b hbK with hlow | hhigh <;> omega
  · rw [hmem' b hb (by omega)]
    exact hmem b (by omega)

/-- An interrupt whose stub follows the CPU's convention is not noticed. -/
theorem interrupt_agree (hK : ∀ b ∈ K, b < lo ∨ hi ≤ b) (hret : Returns isrHandler lo room K)
    (hroom : lo + room + 256 ≤ s.sp) (hhi : s.sp ≤ hi) (hconv : cpuErr vec = isrErr vec) :
    Agree lo K s (interrupt isrHandler ra gate cpuErr vec err s) := by
  obtain ⟨x, hx, hfit, hholds, habove, hmem⟩ :=
    handler_returns ra gate cpuErr vec err hK hret hroom hhi
  obtain ⟨w, hw⟩ : ∃ w, pushed cpuErr vec err s = w :: s.saved := by
    rw [pushed, hconv]
    cases isrErr vec with
    | true => exact ⟨err, rfl⟩
    | false => exact ⟨0, rfl⟩
  rw [hw] at hholds habove
  obtain ⟨y, hy, hysp, hymem, hyholds, hyregs⟩ :=
    exec_isrExit isrHandler ra hfit hholds
  have hsp : s.sp < 2 ^ 64 := (s.regs .rsp).toNat_lt
  have hsix : (w :: s.saved).length = 6 := rfl
  obtain ⟨hrip, hcs, hflags, hss, hregs, hmemy⟩ := iretq_spec (by omega) hyholds
  rw [interrupt_eq, ← hx, hy]
  refine ⟨?_, ⟨hrip, hcs, hflags, hss⟩, fun b hbK hb => ?_⟩
  · rw [hregs]
    funext r
    by_cases hr : r = .rsp
    · rw [hr, Function.update_self]
    · rw [Function.update_of_ne hr, hyregs r hr]
  · rw [hmemy, hymem]
    exact hmem b hbK hb

variable (ra gate err) in
/-- Otherwise the error code, or the code segment, is taken for the address to return to. -/
theorem interrupt_rip (hK : ∀ b ∈ K, b < lo ∨ hi ≤ b) (hret : Returns isrHandler lo room K)
    (hroom : lo + room + 256 ≤ s.sp) (hhi : s.sp ≤ hi) (hconv : cpuErr vec ≠ isrErr vec) :
    (interrupt isrHandler ra gate cpuErr vec err s).rip =
      if cpuErr vec then err else s.cs := by
  obtain ⟨x, hx, hfit, hholds, habove, hmem⟩ :=
    handler_returns ra gate cpuErr vec err hK hret hroom hhi
  obtain ⟨w, rest, hw⟩ : ∃ w rest, pushed cpuErr vec err s =
      w :: (if cpuErr vec then err else s.cs) :: rest := by
    rw [pushed]
    cases hcpu : cpuErr vec with
    | true =>
      rw [hcpu, ne_eq, eq_comm, Bool.not_eq_true] at hconv
      rw [hconv]
      exact ⟨0, s.saved, rfl⟩
    | false =>
      rw [hcpu, ne_eq, eq_comm, Bool.not_eq_false] at hconv
      rw [hconv]
      exact ⟨s.rip, [s.rflags, s.regs .rsp, s.ss], rfl⟩
  rw [hw] at hholds
  obtain ⟨y, hy, -, -, hyholds, -⟩ :=
    exec_isrExit isrHandler ra hfit hholds
  rw [interrupt_eq, ← hx, hy]
  exact top_eq hyholds

/-- At address 1 with an empty stack that starts at `hi`. -/
def blank (hi : ℕ) : Machine :=
  { regs := fun _ => UInt64.ofNat hi, mem := fun _ => 0, rip := 1, cs := 0, rflags := 0, ss := 0 }

theorem blank_sp (h : hi < 2 ^ 64) : (blank hi).sp = hi := by
  rw [sp, blank, UInt64.toNat_ofNat']
  exact Nat.mod_eq_of_lt h

/-- Interrupts of a vector go unnoticed, whatever the interrupted state, exactly when its stub
follows the CPU's convention; and then `isr_handler` is entered with an aligned stack and a frame
that holds the interrupted state field by field. -/
theorem resumes_iff (ra gate : UInt64) (cpuErr : ℕ → Bool) (vec lo hi room : ℕ)
    (hK : ∀ b ∈ K, b < lo ∨ hi ≤ b) (hfit : lo + room + 256 ≤ hi) (hhi : hi < 2 ^ 64)
    (hret : Returns isrHandler lo room K) :
    ((∀ s err, lo + room + 256 ≤ s.sp → s.sp ≤ hi →
        Agree lo K s (interrupt isrHandler ra gate cpuErr vec err s)) ↔
      cpuErr vec = isrErr vec) ∧
    (cpuErr vec = isrErr vec → ∀ s err, lo + room + 256 ≤ s.sp → s.sp ≤ hi →
      ((handlerCall isrHandler ra gate cpuErr vec err s).sp + 8) % 16 = 0 ∧
      Holds (handlerCall isrHandler ra gate cpuErr vec err s).mem
        ((handlerCall isrHandler ra gate cpuErr vec err s).regs .rdi).toNat
        (frameOf s vec (if cpuErr vec then err else 0)).words) := by
  refine ⟨⟨fun hall => ?_, fun hconv s err hroom hs => interrupt_agree hK hret hroom hs hconv⟩,
    fun hconv s err hroom hs => ?_⟩
  · by_contra hconv
    -- a state and an error code that are told apart
    have hsp := blank_sp hhi
    have hagree := hall _ 0 (hfit.trans hsp.ge) hsp.le
    have hrip := interrupt_rip ra gate 0 hK hret (hfit.trans hsp.ge) hsp.le hconv
    rw [hagree.control.1] at hrip
    have hne : (1 : UInt64) ≠ 0 := by decide
    split at hrip <;> exact hne hrip
  · obtain ⟨hsp, hrdi, hholds, -⟩ :=
      handlerCall_spec isrHandler ra gate cpuErr vec err (s := s) (by omega)
    have hwords : savedRegs.reverse.map s.regs ++ UInt64.ofNat vec :: pushed cpuErr vec err s =
        (frameOf s vec (if cpuErr vec then err else 0)).words := by
      rw [pushed, hconv]
      cases isrErr vec <;> rfl
    have hlen : (pushed cpuErr vec err s).length = 6 := by
      rw [pushed, hconv]
      cases isrErr vec <;> rfl
    rw [hlen] at hsp
    rw [hwords, ← hrdi] at hholds
    exact ⟨by omega, hholds⟩

/-- A handler that returns at once. -/
theorem drop_returns (lo room : ℕ) : Returns Machine.drop lo room ∅ :=
  fun _ _ h => ⟨drop_sp h, fun _ _ _ => rfl⟩

/-- With a stack of a page at `0x8000`, and a CPU whose vectors 8, 10 to 14, 17, 21 and 29 push an
error code: an interrupt of vector 32 goes unnoticed, one of vector 29 does not. -/
theorem resumes_iff_page :
    (∀ s err, 0x8000 + 64 + 256 ≤ s.sp → s.sp ≤ 0x9000 → Agree 0x8000 ∅ s
      (interrupt Machine.drop 0 0 (fun v => v ∈ [8, 10, 11, 12, 13, 14, 17, 21, 29]) 32 err s)) ∧
    ¬ ∀ s err, 0x8000 + 64 + 256 ≤ s.sp → s.sp ≤ 0x9000 → Agree 0x8000 ∅ s
      (interrupt Machine.drop 0 0 (fun v => v ∈ [8, 10, 11, 12, 13, 14, 17, 21, 29]) 29 err s) := by
  have hiff (vec : ℕ) := (resumes_iff (K := ∅) 0 0
    (fun v => v ∈ [8, 10, 11, 12, 13, 14, 17, 21, 29]) vec 0x8000 0x9000 64
    (fun _ hb => absurd hb (Set.notMem_empty _)) (by decide)
    (by decide) (drop_returns 0x8000 64)).1
  exact ⟨(hiff 32).mpr (by decide), fun h => absurd ((hiff 29).mp h) (by decide)⟩

/-! ## Runs -/

/-- What happens next to a program: it takes a step, or the CPU takes an interrupt. -/
inductive Event
  | step
  | interrupt (vec : ℕ) (errorCode : UInt64)
  deriving DecidableEq

section Run
variable (isrHandler prog : Machine → Machine) (ra gate : UInt64) (cpuErr : ℕ → Bool)

def next (s : Machine) : Event → Machine
  | .step => prog s
  | .interrupt vec err => interrupt isrHandler ra gate cpuErr vec err s

/-- An interrupt finds room on the stack, and its stub follows the convention. -/
def Met (lo hi room : ℕ) (s : Machine) : Event → Prop
  | .step => True
  | .interrupt vec _ => lo + room + 256 ≤ s.sp ∧ s.sp ≤ hi ∧ cpuErr vec = isrErr vec

end Run

/-- A program that counts in `rax`. -/
def counting (s : Machine) : Machine := s.setReg .rax (s.regs .rax + 1)

theorem counting_blind (lo : ℕ) (K : Set ℕ) : Blind lo K counting := by
  intro s s' h
  have hsp : (counting s).sp = s.sp := congrArg UInt64.toNat (setReg_of_ne _ (by decide))
  refine ⟨?_, h.control, fun b hK hb => h.mem b hK (hsp ▸ hb)⟩
  rw [counting, counting, setReg, setReg, h.regs]

end Ggmk.Interrupt
