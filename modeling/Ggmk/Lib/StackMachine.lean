import Ggmk.Lib.ByteMem

/-! A fragment of x86-64: sixteen registers, a stack that grows down in byte-addressed memory, moves,
calls, returns, and the delivery of interrupts in 64-bit mode. -/
namespace StackMachine
open ByteMem

inductive Reg
  | rax | rbx | rcx | rdx | rsi | rdi | rbp | rsp
  | r8 | r9 | r10 | r11 | r12 | r13 | r14 | r15
  deriving DecidableEq

structure Machine where
  regs : Reg → UInt64
  mem : Mem
  rip : UInt64
  cs : UInt64
  rflags : UInt64
  ss : UInt64

namespace Machine

def setReg (s : Machine) (r : Reg) (v : UInt64) : Machine :=
  { s with regs := Function.update s.regs r v }

def read64 (s : Machine) (a : UInt64) : UInt64 := UInt64.ofNat (readLe s.mem a.toNat 8)

def write64 (s : Machine) (a v : UInt64) : Machine :=
  { s with mem := writeLe s.mem a.toNat 8 v.toNat }

/-- The stack pointer as an address. -/
def sp (s : Machine) : ℕ := (s.regs .rsp).toNat

def push (s : Machine) (v : UInt64) : Machine :=
  (s.setReg .rsp (s.regs .rsp - 8)).write64 (s.regs .rsp - 8) v

/-- The word on top of the stack. -/
def top (s : Machine) : UInt64 := s.read64 (s.regs .rsp)

/-- The stack without its top word. -/
def drop (s : Machine) : Machine := s.setReg .rsp (s.regs .rsp + 8)

def pop (s : Machine) (r : Reg) : Machine := s.drop.setReg r s.top

def pushes (s : Machine) (vs : List UInt64) : Machine := vs.foldl push s

def pops (s : Machine) (rs : List Reg) : Machine := rs.foldl pop s

end Machine

namespace Machine

/-- What the CPU pushes for an interrupt at the current privilege level: the stack is aligned, the
interrupted state goes on it, then the error code if there is one. -/
def pushState (s : Machine) (errorCode : Option UInt64) : Machine :=
  (s.setReg .rsp (s.regs .rsp - s.regs .rsp % 16)).pushes
    ([s.ss, s.regs .rsp, s.rflags, s.cs, s.rip] ++ errorCode.toList)

/-- The CPU takes an interrupt through an interrupt gate, which turns interrupts off. -/
def deliver (s : Machine) (errorCode : Option UInt64) (codeSegment gate : UInt64) : Machine :=
  { s.pushState errorCode with
    rip := gate, cs := codeSegment, rflags := s.rflags &&& ~~~0x14300 }

/-- `iretq` takes the five words back. -/
def iretq (s : Machine) : Machine :=
  { s.drop.drop.drop.setReg .rsp s.drop.drop.drop.top with
    rip := s.top
    cs := s.drop.top
    rflags := s.drop.drop.top
    ss := s.drop.drop.drop.drop.top }

end Machine

/-- The instructions; a call runs code that is given by what it does. -/
inductive Instr
  | pushImm (v : UInt64)
  | push (r : Reg)
  | pop (r : Reg)
  | mov (dst src : Reg)
  | addImm (r : Reg) (v : UInt64)
  | store (base : Reg) (disp : UInt64) (src : Reg)
  | load (dst base : Reg) (disp : UInt64)
  | call
  | ret
  | iretq

/-- One instruction; `returnAddress` is what a call pushes. -/
def Instr.exec (callee : Machine → Machine) (returnAddress : UInt64) (s : Machine) :
    Instr → Machine
  | .pushImm v => s.push v
  | .push r => s.push (s.regs r)
  | .pop r => s.pop r
  | .mov dst src => s.setReg dst (s.regs src)
  | .addImm r v => s.setReg r (s.regs r + v)
  | .store base disp src => s.write64 (s.regs base + disp) (s.regs src)
  | .load dst base disp => s.setReg dst (s.read64 (s.regs base + disp))
  | .call => callee (s.push returnAddress)
  | .ret => { s.drop with rip := s.top }
  | .iretq => s.iretq

def exec (callee : Machine → Machine) (returnAddress : UInt64) (s : Machine)
    (code : List Instr) : Machine := code.foldl (Instr.exec callee returnAddress) s

/-- The words `vs` stand in memory from `a` on. -/
def Holds (m : Mem) (a : ℕ) : List UInt64 → Prop
  | [] => True
  | v :: vs => readLe m a 8 = v.toNat ∧ Holds m (a + 8) vs

variable {m m' : Mem} {a b : ℕ} {v : UInt64} {vs ws : List UInt64} {s s' : Machine} {r : Reg}

theorem Holds.congr (h : Holds m a vs) (hm : ∀ b, a ≤ b → b < a + 8 * vs.length → m' b = m b) :
    Holds m' a vs := by
  induction vs generalizing a with
  | nil => trivial
  | cons v vs ih =>
    rw [List.length_cons] at hm
    refine ⟨?_, ih h.2 fun b hab hb => hm b (by omega) (by omega)⟩
    rw [readLe_congr fun b hab hb => hm b hab (by omega)]
    exact h.1

theorem holds_append : Holds m a (vs ++ ws) ↔ Holds m a vs ∧ Holds m (a + 8 * vs.length) ws := by
  induction vs generalizing a with
  | nil => simp [Holds]
  | cons v vs ih =>
    have hlen : a + 8 + 8 * vs.length = a + 8 * (v :: vs).length := by
      rw [List.length_cons]
      omega
    rw [List.cons_append, Holds, Holds, ih, hlen, and_assoc]

theorem Holds.getElem (h : Holds m a vs) {i : ℕ} (hi : i < vs.length) :
    readLe m (a + 8 * i) 8 = vs[i].toNat := by
  induction vs generalizing a i with
  | nil => exact absurd hi (Nat.not_lt_zero i)
  | cons v vs ih =>
    cases i with
    | zero => exact h.1
    | succ i =>
      have hnext := ih h.2 (Nat.lt_of_succ_lt_succ hi)
      rwa [show a + 8 + 8 * i = a + 8 * (i + 1) by omega] at hnext

namespace Machine

/-- Two states that only differ in their general registers and in memory. -/
def SameControl (s s' : Machine) : Prop :=
  s'.rip = s.rip ∧ s'.cs = s.cs ∧ s'.rflags = s.rflags ∧ s'.ss = s.ss

theorem SameControl.trans {s'' : Machine} (h : s.SameControl s') (h' : s'.SameControl s'') :
    s.SameControl s'' :=
  ⟨h'.1.trans h.1, h'.2.1.trans h.2.1, h'.2.2.1.trans h.2.2.1, h'.2.2.2.trans h.2.2.2⟩

theorem setReg_self (s : Machine) (r : Reg) (v : UInt64) : (s.setReg r v).regs r = v :=
  Function.update_self ..

theorem setReg_of_ne {r r' : Reg} (v : UInt64) (h : r' ≠ r) : (s.setReg r v).regs r' = s.regs r' :=
  Function.update_of_ne h ..

theorem sub_toNat (h : 8 ≤ s.sp) : (s.regs .rsp - 8).toNat = s.sp - 8 := by
  have hle : (8 : UInt64) ≤ s.regs .rsp := by
    rw [UInt64.le_iff_toNat_le]
    exact h
  exact UInt64.toNat_sub_of_le _ _ hle

theorem push_sp (h : 8 ≤ s.sp) (v : UInt64) : (s.push v).sp = s.sp - 8 := by
  show (Function.update s.regs .rsp (s.regs .rsp - 8) .rsp).toNat = _
  rw [Function.update_self, sub_toNat h]

theorem push_mem (h : 8 ≤ s.sp) (v : UInt64) : (s.push v).mem = writeLe s.mem (s.sp - 8) 8 v.toNat := by
  rw [← sub_toNat h]
  rfl

theorem push_regs (v : UInt64) (hr : r ≠ .rsp) : (s.push v).regs r = s.regs r :=
  Function.update_of_ne hr ..

/-- A pushed word lies on top of those that were there. -/
theorem push_holds (h : 8 ≤ s.sp) (hs : Holds s.mem s.sp vs) (v : UInt64) :
    Holds (s.push v).mem (s.push v).sp (v :: vs) := by
  rw [push_sp h, push_mem h]
  refine ⟨?_, ?_⟩
  · rw [readLe_writeLe_self]
    exact Nat.mod_eq_of_lt v.toNat_lt
  · rw [Nat.sub_add_cancel h]
    exact hs.congr fun b hb _ => writeLe_of_notMem (.inr (by omega))

theorem pushes_cons : s.pushes (v :: vs) = (s.push v).pushes vs := rfl

/-- What a sequence of pushes leaves: the words in reverse below what was there, and everything
else as it was. -/
theorem pushes_spec (h : 8 * vs.length ≤ s.sp) (hs : Holds s.mem s.sp ws) :
    (s.pushes vs).sp = s.sp - 8 * vs.length ∧
      Holds (s.pushes vs).mem (s.pushes vs).sp (vs.reverse ++ ws) ∧
      (∀ b, b < s.sp - 8 * vs.length ∨ s.sp ≤ b → (s.pushes vs).mem b = s.mem b) ∧
      (∀ r, r ≠ .rsp → (s.pushes vs).regs r = s.regs r) ∧ s.SameControl (s.pushes vs) := by
  induction vs generalizing s ws with
  | nil => exact ⟨rfl, hs, fun _ _ => rfl, fun _ _ => rfl, rfl, rfl, rfl, rfl⟩
  | cons v vs ih =>
    rw [List.length_cons] at h
    have h8 : 8 ≤ s.sp := by omega
    have hsp := push_sp h8 v
    obtain ⟨hsp', hholds, hmem, hregs, hctl⟩ := ih (s := s.push v) (by omega) (push_holds h8 hs v)
    rw [pushes_cons, List.length_cons, List.reverse_cons, List.append_assoc]
    refine ⟨by omega, hholds, fun b hb => ?_, fun r hr => ?_, ?_⟩
    · rw [hmem b (by omega), push_mem h8]
      exact writeLe_of_notMem (by omega)
    · rw [hregs r hr, push_regs v hr]
    · have hpush : s.SameControl (s.push v) := ⟨rfl, rfl, rfl, rfl⟩
      exact hpush.trans hctl

theorem top_eq (hs : Holds s.mem s.sp (v :: vs)) : s.top = v := by
  rw [top, read64, ← UInt64.toNat_inj, UInt64.toNat_ofNat']
  exact (congrArg (· % 2 ^ 64) hs.1).trans (Nat.mod_eq_of_lt v.toNat_lt)

theorem drop_sp (h : s.sp + 8 < 2 ^ 64) : s.drop.sp = s.sp + 8 := by
  show (Function.update s.regs .rsp (s.regs .rsp + 8) .rsp).toNat = _
  rw [Function.update_self, UInt64.toNat_add]
  exact Nat.mod_eq_of_lt h

theorem drop_holds (h : s.sp + 8 < 2 ^ 64) (hs : Holds s.mem s.sp (v :: vs)) :
    Holds s.drop.mem s.drop.sp vs := by
  rw [drop_sp h]
  exact hs.2

theorem pop_sp (h : s.sp + 8 < 2 ^ 64) (hr : r ≠ .rsp) : (s.pop r).sp = s.sp + 8 := by
  rw [← drop_sp h]
  exact congrArg UInt64.toNat (Function.update_of_ne hr.symm ..)

/-- Pops give the registers the words on the stack. -/
theorem pops_spec (f : Reg → UInt64) {rs : List Reg} (hrs : rs.Nodup) (hsp : .rsp ∉ rs)
    (h : s.sp + 8 * rs.length < 2 ^ 64) (hs : Holds s.mem s.sp (rs.map f ++ ws)) :
    (s.pops rs).sp = s.sp + 8 * rs.length ∧ (∀ r ∈ rs, (s.pops rs).regs r = f r) ∧
      (∀ r, r ∉ rs → r ≠ .rsp → (s.pops rs).regs r = s.regs r) ∧ (s.pops rs).mem = s.mem ∧
      s.SameControl (s.pops rs) := by
  induction rs generalizing s with
  | nil => exact ⟨rfl, nofun, fun _ _ _ => rfl, rfl, rfl, rfl, rfl, rfl⟩
  | cons r rs ih =>
    obtain ⟨hr, hrs⟩ := List.nodup_cons.mp hrs
    rw [List.length_cons] at h
    have hne : r ≠ .rsp := fun heq => hsp (heq ▸ List.mem_cons_self)
    have hpop := pop_sp (s := s) (r := r) (by omega) hne
    have hholds : Holds (s.pop r).mem (s.pop r).sp (rs.map f ++ ws) := by
      rw [hpop]
      exact hs.2
    obtain ⟨hsp', hin, hout, hmem, hctl⟩ := ih (s := s.pop r) hrs
      (fun hmem => hsp (List.mem_cons_of_mem _ hmem)) (by omega) hholds
    have hself : (s.pop r).regs r = f r := by
      rw [← top_eq hs]
      exact Function.update_self ..
    refine ⟨?_, fun r' hr' => ?_, fun r' hr' hr'' => ?_, hmem, ?_⟩
    · rw [List.length_cons]
      exact hsp'.trans (by omega)
    · rcases List.mem_cons.mp hr' with rfl | hr'
      · exact (hout r' hr hne).trans hself
      · exact hin r' hr'
    · obtain ⟨hr1, hr2⟩ := not_or.mp fun h => hr' (List.mem_cons.mpr h)
      refine (hout r' hr2 hr'').trans ((Function.update_of_ne hr1 ..).trans ?_)
      exact Function.update_of_ne hr'' ..
    · have hpop' : s.SameControl (s.pop r) := ⟨rfl, rfl, rfl, rfl⟩
      exact hpop'.trans hctl

theorem sp_align (s : Machine) :
    (s.setReg .rsp (s.regs .rsp - s.regs .rsp % 16)).sp = s.sp - s.sp % 16 := by
  have hmod : (s.regs .rsp % 16).toNat = s.sp % 16 := UInt64.toNat_mod _ _
  have hle : s.regs .rsp % 16 ≤ s.regs .rsp := by
    rw [UInt64.le_iff_toNat_le, hmod]
    exact Nat.mod_le _ _
  show (Function.update s.regs .rsp (s.regs .rsp - s.regs .rsp % 16) .rsp).toNat = _
  rw [Function.update_self, UInt64.toNat_sub_of_le _ _ hle, hmod]
  rfl

/-- The state that an interrupt leaves on the stack. -/
def saved (s : Machine) : List UInt64 := [s.rip, s.cs, s.rflags, s.regs .rsp, s.ss]

/-- The interrupted state lies on the stack. -/
theorem pushState_spec (errorCode : Option UInt64) (h : 64 ≤ s.sp) :
    (s.pushState errorCode).sp = s.sp - s.sp % 16 - 8 * (5 + errorCode.toList.length) ∧
      Holds (s.pushState errorCode).mem (s.pushState errorCode).sp
        (errorCode.toList ++ s.saved) ∧
      (∀ b, b < s.sp - 64 ∨ s.sp ≤ b → (s.pushState errorCode).mem b = s.mem b) ∧
      ∀ r, r ≠ .rsp → (s.pushState errorCode).regs r = s.regs r := by
  have halign := sp_align s
  have hone : errorCode.toList.length ≤ 1 := by cases errorCode <;> simp
  have hlen : ([s.ss, s.regs .rsp, s.rflags, s.cs, s.rip] ++ errorCode.toList).length =
      5 + errorCode.toList.length := List.length_append
  have hrev : ([s.ss, s.regs .rsp, s.rflags, s.cs, s.rip] ++ errorCode.toList).reverse ++ [] =
      errorCode.toList ++ s.saved := by
    cases errorCode <;> rfl
  have hroom : 8 * ([s.ss, s.regs .rsp, s.rflags, s.cs, s.rip] ++ errorCode.toList).length ≤
      (s.setReg .rsp (s.regs .rsp - s.regs .rsp % 16)).sp := by
    rw [hlen, halign]
    omega
  have hnil : Holds (s.setReg .rsp (s.regs .rsp - s.regs .rsp % 16)).mem
      (s.setReg .rsp (s.regs .rsp - s.regs .rsp % 16)).sp [] := trivial
  have hspec := pushes_spec hroom hnil
  rw [hlen, halign, hrev] at hspec
  obtain ⟨hsp, hholds, hmem, hregs, -⟩ := hspec
  refine ⟨hsp, hholds, fun b hb => ?_, fun r hr => (hregs r hr).trans ?_⟩
  · exact hmem b (by omega)
  · exact Function.update_of_ne hr ..

theorem deliver_regs (errorCode : Option UInt64) (codeSegment gate : UInt64) :
    (s.deliver errorCode codeSegment gate).regs = (s.pushState errorCode).regs := by
  simp only [deliver]

theorem deliver_mem (errorCode : Option UInt64) (codeSegment gate : UInt64) :
    (s.deliver errorCode codeSegment gate).mem = (s.pushState errorCode).mem := by
  simp only [deliver]

theorem deliver_sp (errorCode : Option UInt64) (codeSegment gate : UInt64) :
    (s.deliver errorCode codeSegment gate).sp = (s.pushState errorCode).sp := by
  rw [sp, deliver_regs, sp]

/-- `iretq` resumes the state on the stack. -/
theorem iretq_spec {rip cs rflags sp ss : UInt64} (h : s.sp + 40 < 2 ^ 64)
    (hs : Holds s.mem s.sp [rip, cs, rflags, sp, ss]) :
    s.iretq.rip = rip ∧ s.iretq.cs = cs ∧ s.iretq.rflags = rflags ∧ s.iretq.ss = ss ∧
      s.iretq.regs = Function.update s.regs .rsp sp ∧ s.iretq.mem = s.mem := by
  have h1 := drop_holds (s := s) (by omega) hs
  have hsp1 := drop_sp (s := s) (by omega)
  have h2 := drop_holds (s := s.drop) (by omega) h1
  have hsp2 := drop_sp (s := s.drop) (by omega)
  have h3 := drop_holds (s := s.drop.drop) (by omega) h2
  have hsp3 := drop_sp (s := s.drop.drop) (by omega)
  have h4 := drop_holds (s := s.drop.drop.drop) (by omega) h3
  refine ⟨top_eq hs, top_eq h1, top_eq h2, top_eq h4, ?_, rfl⟩
  show Function.update s.drop.drop.drop.regs .rsp s.drop.drop.drop.top = _
  rw [top_eq h3]
  funext r
  by_cases hr : r = .rsp
  · rw [hr, Function.update_self, Function.update_self]
  · rw [Function.update_of_ne hr, Function.update_of_ne hr]
    simp only [drop, setReg, Function.update_of_ne hr]

variable {callee : Machine → Machine} {ra : UInt64}

theorem exec_append (s : Machine) (code code' : List Instr) :
    exec callee ra s (code ++ code') = exec callee ra (exec callee ra s code) code' :=
  List.foldl_append

theorem exec_push {rs : List Reg} (hsp : .rsp ∉ rs) (s : Machine) :
    exec callee ra s (rs.map .push) = s.pushes (rs.map s.regs) := by
  induction rs generalizing s with
  | nil => rfl
  | cons r rs ih =>
    obtain ⟨-, hrs⟩ := not_or.mp fun h => hsp (List.mem_cons.mpr h)
    have hmap : rs.map (s.push (s.regs r)).regs = rs.map s.regs :=
      List.map_congr_left fun r' hr' => push_regs _ fun heq => hrs (heq ▸ hr')
    calc exec callee ra s ((r :: rs).map .push)
        = exec callee ra (s.push (s.regs r)) (rs.map .push) := rfl
      _ = (s.push (s.regs r)).pushes (rs.map s.regs) := by rw [ih hrs, hmap]
      _ = s.pushes ((r :: rs).map s.regs) := rfl

theorem exec_pop (rs : List Reg) (s : Machine) :
    exec callee ra s (rs.map .pop) = s.pops rs := by
  induction rs generalizing s with
  | nil => rfl
  | cons r rs ih => exact ih (s.pop r)

/-- A routine that may use the stack below `lo` up to its return address and the memory `K`, and
that returns. -/
def Returns (callee : Machine → Machine) (lo room : ℕ) (K : Set ℕ) : Prop :=
  ∀ s : Machine, lo + room ≤ s.sp → s.sp + 8 < 2 ^ 64 → (callee s).sp = s.sp + 8 ∧
    ∀ b, b ∉ K → (b < lo ∨ s.sp ≤ b) → (callee s).mem b = s.mem b

/-- The same state as far as a program can tell that leaves the free part of its stack, from `lo` to
the stack pointer, and the memory `K` alone. -/
structure Agree (lo : ℕ) (K : Set ℕ) (s s' : Machine) : Prop where
  regs : s'.regs = s.regs
  control : s.SameControl s'
  mem : ∀ b, b ∉ K → (b < lo ∨ s.sp ≤ b) → s'.mem b = s.mem b

theorem Agree.refl (lo : ℕ) (K : Set ℕ) (s : Machine) : Agree lo K s s :=
  ⟨rfl, ⟨rfl, rfl, rfl, rfl⟩, fun _ _ _ => rfl⟩

theorem Agree.trans {lo : ℕ} {K : Set ℕ} {s'' : Machine} (h : Agree lo K s s')
    (h' : Agree lo K s' s'') : Agree lo K s s'' := by
  have hsp : s'.sp = s.sp := congrArg UInt64.toNat (congrFun h.regs .rsp)
  refine ⟨h'.regs.trans h.regs, h.control.trans h'.control, fun b hK hb => ?_⟩
  exact (h'.mem b hK (hsp ▸ hb)).trans (h.mem b hK hb)

/-- A program for which states that agree are the same. -/
def Blind (lo : ℕ) (K : Set ℕ) (prog : Machine → Machine) : Prop :=
  ∀ s s', Agree lo K s s' → Agree lo K (prog s) (prog s')

end Machine
end StackMachine
