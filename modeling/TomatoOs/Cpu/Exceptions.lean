import TomatoOs.Lib.Stack

/-!
# Exception frames

An exception goes through three hands: the processor pushes the interrupted
state, the stub of the vector in `idt.asm` and `baseHandler` push the rest, and
`exception_handler` reads it all as a `struct IDTEFrame` on the stack. The
structure starts with `cr2`, which nobody pushes. So every field holds the word
that belongs to the next one.
-/

namespace TomatoOs.Cpu

open Lib

inductive Reg
  | rax | rbx | rcx | rdx | rsi | rdi | rbp
  | r8 | r9 | r10 | r11 | r12 | r13 | r14 | r15
deriving DecidableEq

structure Processor where
  regs : Reg → Word
  rip : Word
  cs : Word
  flags : Word
  rsp : Word
  ss : Word
  mem : Mem

def Processor.push (w : Word) (p : Processor) : Processor :=
  { p with rsp := p.rsp - 8#64, mem := p.mem.putWord (p.rsp - 8#64) w }

@[simp] theorem Processor.push_regs (p : Processor) (w : Word) : (p.push w).regs = p.regs := rfl

-- ---------------------------------------------------------------------------
-- idt.asm
-- ---------------------------------------------------------------------------

/-- The instructions of the stubs and of `baseHandler`. A `call` goes on in the
callee, with the address behind it on the stack. -/
inductive Instr
  | pushImm (n : Nat)
  | push (r : Reg)
  | cld
  | movRdiRsp
  | call (ret : Word)
  | pop (r : Reg)
  | addRsp (n : Nat)
  | iretq

def Instr.exec : Instr → Processor → Processor
  | .pushImm n, p => p.push (BitVec.ofNat 64 n)
  | .push r, p => p.push (p.regs r)
  | .cld, p => { p with flags := p.flags &&& ~~~(1#64 <<< 10) }
  | .movRdiRsp, p => { p with regs := Function.update p.regs .rdi p.rsp }
  | .call ret, p => p.push ret
  | .pop r, p =>
    { p with regs := Function.update p.regs r (p.mem.word p.rsp), rsp := p.rsp + 8#64 }
  | .addRsp n, p => { p with rsp := p.rsp + BitVec.ofNat 64 n }
  | .iretq, p =>
    { p with
      rip := p.mem.word p.rsp
      cs := p.mem.word (p.rsp + 8#64)
      flags := p.mem.word (p.rsp + 8#64 + 8#64)
      rsp := p.mem.word (p.rsp + 8#64 + 8#64 + 8#64)
      ss := p.mem.word (p.rsp + 8#64 + 8#64 + 8#64 + 8#64) }

def exec (code : List Instr) (p : Processor) : Processor := code.foldl (fun p i => i.exec p) p

inductive Stub
  | divideException | debugException | breakpointException | overflowException
  | boundRangeExceededException | invalidOpcodeException | deviceNotAvaliableException
  | doubleFaultException | coprocessorSegmentOverrunException | invalidTSSException
  | segmentNotPresentException | stackSegmentFaultException | generalProtectionFaultException
  | pageFaultException | floatingPointException | alignmentCheckException
  | machineCheckException | simdFloatingPointException | virtualisationException
deriving DecidableEq

def Stub.vector : Stub → Nat
  | .divideException => 0
  | .debugException => 1
  | .breakpointException => 3
  | .overflowException => 4
  | .boundRangeExceededException => 5
  | .invalidOpcodeException => 6
  | .deviceNotAvaliableException => 7
  | .doubleFaultException => 8
  | .coprocessorSegmentOverrunException => 9
  | .invalidTSSException => 10
  | .segmentNotPresentException => 11
  | .stackSegmentFaultException => 12
  | .generalProtectionFaultException => 13
  | .pageFaultException => 14
  | .floatingPointException => 16
  | .alignmentCheckException => 17
  | .machineCheckException => 18
  | .simdFloatingPointException => 19
  | .virtualisationException => 20

def Stub.code : Stub → List Instr
  | .divideException => [.pushImm 0, .pushImm 0]
  | .debugException => [.pushImm 0, .pushImm 1]
  | .breakpointException => [.pushImm 0, .pushImm 3]
  | .overflowException => [.pushImm 0, .pushImm 4]
  | .boundRangeExceededException => [.pushImm 0, .pushImm 5]
  | .invalidOpcodeException => [.pushImm 0, .pushImm 6]
  | .deviceNotAvaliableException => [.pushImm 0, .pushImm 7]
  | .doubleFaultException => [.pushImm 8]
  | .coprocessorSegmentOverrunException => [.pushImm 0, .pushImm 9]
  | .invalidTSSException => [.pushImm 10]
  | .segmentNotPresentException => [.pushImm 11]
  | .stackSegmentFaultException => [.pushImm 12]
  | .generalProtectionFaultException => [.pushImm 13]
  | .pageFaultException => [.pushImm 14]
  | .floatingPointException => [.pushImm 0, .pushImm 16]
  | .alignmentCheckException => [.pushImm 17]
  | .machineCheckException => [.pushImm 0, .pushImm 18]
  | .simdFloatingPointException => [.pushImm 0, .pushImm 19]
  | .virtualisationException => [.pushImm 0, .pushImm 20]

def savedRegs : List Reg :=
  [.rax, .rbx, .rcx, .rdx, .rsi, .rdi, .rbp, .r8, .r9, .r10, .r11, .r12, .r13, .r14, .r15]

/-- `baseHandler` up to the call of `exception_handler`. -/
def baseHandlerEntry (ret : Word) : List Instr :=
  savedRegs.map .push ++ [.cld, .movRdiRsp, .call ret]

/-- `baseHandler` behind the call. -/
def baseHandlerExit : List Instr := savedRegs.reverse.map .pop ++ [.addRsp 16, .iretq]

-- ---------------------------------------------------------------------------
-- The processor
-- ---------------------------------------------------------------------------

/-- The vectors with a stub for which the processor pushes an error code. -/
def Stub.hasErrorCode (stub : Stub) : Bool := stub.vector ∈ [8, 10, 11, 12, 13, 14, 17]

/-- The stack pointer is aligned to 16 bytes first. `top` is the interrupted one, or
that of the task state segment. -/
def alignStack (top : Word) : Word := (top >>> 4) <<< 4

def deliver (top : Word) (errorCode : Option Word) (p : Processor) : Processor :=
  let q := { p with rsp := alignStack top }
  let q := ((((q.push p.ss).push p.rsp).push p.flags).push p.cs).push p.rip
  match errorCode with
  | none => q
  | some w => q.push w

-- ---------------------------------------------------------------------------
-- exception_handler
-- ---------------------------------------------------------------------------

@[ext]
structure IDTEFrame where
  cr2 : Word
  r15 : Word
  r14 : Word
  r13 : Word
  r12 : Word
  r11 : Word
  r10 : Word
  r9 : Word
  r8 : Word
  rbp : Word
  rdi : Word
  rsi : Word
  rdx : Word
  rcx : Word
  rbx : Word
  rax : Word
  type : Word
  code : Word
  rip : Word
  cs : Word
  flags : Word
  rsp : Word
  ss : Word
deriving DecidableEq

def IDTEFrame.reg (f : IDTEFrame) : Reg → Word
  | .rax => f.rax
  | .rbx => f.rbx
  | .rcx => f.rcx
  | .rdx => f.rdx
  | .rsi => f.rsi
  | .rdi => f.rdi
  | .rbp => f.rbp
  | .r8 => f.r8
  | .r9 => f.r9
  | .r10 => f.r10
  | .r11 => f.r11
  | .r12 => f.r12
  | .r13 => f.r13
  | .r14 => f.r14
  | .r15 => f.r15

def frameAt (m : Mem) (a : Word) : IDTEFrame :=
  let field (i : Nat) : Word := m.word (a + BitVec.ofNat 64 (8 * i))
  { cr2 := field 0, r15 := field 1, r14 := field 2, r13 := field 3, r12 := field 4
    r11 := field 5, r10 := field 6, r9 := field 7, r8 := field 8, rbp := field 9
    rdi := field 10, rsi := field 11, rdx := field 12, rcx := field 13, rbx := field 14
    rax := field 15, type := field 16, code := field 17, rip := field 18, cs := field 19
    flags := field 20, rsp := field 21, ss := field 22 }

def entered (stub : Stub) (top errorCode ret : Word) (p : Processor) : Processor :=
  exec (stub.code ++ baseHandlerEntry ret)
    (deliver top (if stub.hasErrorCode then some errorCode else none) p)

/-- Its parameter: the structure lies above the return address. -/
def exceptionFrame (stub : Stub) (top errorCode ret : Word) (p : Processor) : IDTEFrame :=
  let q := entered stub top errorCode ret p
  frameAt q.mem (q.rsp + 8#64)

def exceptionLabel (type : Word) : String :=
  match type.toNat with
  | 0 => "Divide by Zero Exception"
  | 1 => "Debug Exception"
  | 3 => "Breakpoint Exception"
  | 4 => "Overflow Exception"
  | 5 => "Bound Range Exceeded"
  | 6 => "Invalid Opcode Exception"
  | 7 => "Device Not Available"
  | 8 => "Double Fault"
  | 9 => "Coprocessor Segment Overrun"
  | 10 => "Invalid TSS"
  | 11 => "Segment Not Present"
  | 12 => "Stack-Segment Fault"
  | 13 => "General Protection Fault"
  | 14 => "Page Fault"
  | 16 => "Floating-Point Exception"
  | 17 => "Alignment Check"
  | 18 => "Machine Check"
  | 19 => "SIMD Floating-Point Exception"
  | 20 => "Virtualization Exception"
  | _ => "Unknown Exception"

-- ---------------------------------------------------------------------------
-- What is on the stack
-- ---------------------------------------------------------------------------

section
variable {p q : Processor} {ws : List Word} {f : Reg → Word}

theorem push_stacked (h : Stacked p.mem p.rsp ws) (hlen : ws.length < 2 ^ 60) (w : Word) :
    Stacked (p.push w).mem (p.push w).rsp (w :: ws) := h.push hlen w

theorem exec_append (a b : List Instr) (p : Processor) : exec (a ++ b) p = exec b (exec a p) :=
  List.foldl_append

theorem exec_pushes (rs : List Reg) (h : Stacked p.mem p.rsp ws)
    (hlen : ws.length + rs.length < 2 ^ 60) :
    (exec (rs.map .push) p).regs = p.regs ∧
      Stacked (exec (rs.map .push) p).mem (exec (rs.map .push) p).rsp
        (rs.reverse.map p.regs ++ ws) := by
  induction rs generalizing p ws with
  | nil => exact ⟨rfl, h⟩
  | cons r rs ih =>
    rw [List.length_cons] at hlen
    have hr := ih (push_stacked h (by omega) (p.regs r)) (by rw [List.length_cons]; omega)
    refine ⟨hr.1, ?_⟩
    rw [List.reverse_cons, List.map_append, List.append_assoc]
    exact hr.2

/-- A register that is popped twice gets the same word both times. -/
theorem exec_pops (rs : List Reg) (h : Stacked q.mem q.rsp (rs.map f ++ ws)) :
    (exec (rs.map .pop) q).regs = (fun r => if r ∈ rs then f r else q.regs r) ∧
      Stacked (exec (rs.map .pop) q).mem (exec (rs.map .pop) q).rsp ws := by
  induction rs generalizing q with
  | nil => exact ⟨by simp [exec], h⟩
  | cons r rs ih =>
    obtain ⟨hword, hrest⟩ := h.pop
    obtain ⟨hregs, hstack⟩ := ih (q := (Instr.pop r).exec q) hrest
    refine ⟨?_, hstack⟩
    change (exec (rs.map .pop) ((Instr.pop r).exec q)).regs = _
    rw [hregs]
    funext x
    by_cases hx : x = r
    · subst hx
      simp [Instr.exec, hword]
    · simp [Instr.exec, hx]

theorem alignStack_stacked (m : Mem) (top : Word) :
    Stacked m (alignStack top) [m.word (alignStack top)] := by
  refine ⟨?_, fun i w hw => ?_⟩
  · rw [alignStack, BitVec.toNat_shiftLeft, Nat.shiftLeft_eq]
    omega
  · obtain ⟨rfl, rfl⟩ : i = 0 ∧ m.word (alignStack top) = w := by
      cases i with
      | zero => exact ⟨rfl, by simpa using hw⟩
      | succ i => simp at hw
    simp

theorem deliver_regs (top : Word) (errorCode : Option Word) (p : Processor) :
    (deliver top errorCode p).regs = p.regs := by
  cases errorCode <;> simp [deliver]

theorem deliver_stacked (top : Word) (errorCode : Option Word) (p : Processor) :
    Stacked (deliver top errorCode p).mem (deliver top errorCode p).rsp
      (errorCode.toList ++
        [p.rip, p.cs, p.flags, p.rsp, p.ss, p.mem.word (alignStack top)]) := by
  have h0 := alignStack_stacked p.mem top
  have h1 := push_stacked (p := { p with rsp := alignStack top }) h0 (by simp) p.ss
  have h2 := push_stacked h1 (by simp) p.rsp
  have h3 := push_stacked h2 (by simp) p.flags
  have h4 := push_stacked h3 (by simp) p.cs
  have h5 := push_stacked h4 (by simp) p.rip
  cases errorCode with
  | none => exact h5
  | some w => exact push_stacked h5 (by simp) w

/-- The error code of the exception, 0 if it has none. -/
def Stub.errorCode (stub : Stub) (w : Word) : Word := if stub.hasErrorCode then w else 0

theorem Stub.code_eq (stub : Stub) :
    stub.code = if stub.hasErrorCode then [.pushImm stub.vector]
      else [.pushImm 0, .pushImm stub.vector] := by
  cases stub <;> rfl

theorem exec_call (ret : Word) (h : Stacked p.mem p.rsp ws) (hlen : ws.length < 2 ^ 60) :
    Stacked (exec [.cld, .movRdiRsp, .call ret] p).mem
      (exec [.cld, .movRdiRsp, .call ret] p).rsp (ret :: ws) :=
  push_stacked (p := Instr.movRdiRsp.exec (Instr.cld.exec p)) h hlen ret

theorem baseHandlerEntry_stacked (ret : Word) (h : Stacked p.mem p.rsp ws)
    (hlen : ws.length < 2 ^ 32) :
    Stacked (exec (baseHandlerEntry ret) p).mem (exec (baseHandlerEntry ret) p).rsp
      (ret :: (savedRegs.reverse.map p.regs ++ ws)) := by
  have hsaved : savedRegs.length = 15 := rfl
  obtain ⟨-, hs⟩ := exec_pushes savedRegs h (by omega)
  rw [baseHandlerEntry, exec_append]
  refine exec_call ret hs ?_
  rw [List.length_append, List.length_map, List.length_reverse]
  omega

theorem stub_stacked (stub : Stub) (top errorCode : Word) (p : Processor) :
    let q := exec stub.code (deliver top (if stub.hasErrorCode then some errorCode else none) p)
    q.regs = p.regs ∧ Stacked q.mem q.rsp [BitVec.ofNat 64 stub.vector,
      stub.errorCode errorCode, p.rip, p.cs, p.flags, p.rsp, p.ss,
      p.mem.word (alignStack top)] := by
  intro q
  have hd := deliver_stacked top (if stub.hasErrorCode then some errorCode else none) p
  have hregs := deliver_regs top (if stub.hasErrorCode then some errorCode else none) p
  have hq : q = exec stub.code _ := rfl
  rw [stub.code_eq] at hq
  rw [Stub.errorCode]
  cases hcode : stub.hasErrorCode with
  | true =>
    simp only [hcode, if_true] at hq hd hregs
    rw [hq]
    exact ⟨hregs, push_stacked hd (by simp) _⟩
  | false =>
    simp only [hcode, Bool.false_eq_true, if_false] at hq hd hregs
    rw [hq]
    exact ⟨hregs, push_stacked (push_stacked hd (by simp) 0) (by simp) _⟩

/-- The words that an exception leaves on the stack, from the top of the stack at
the call of `exception_handler` upwards. -/
theorem entered_stacked (stub : Stub) (top errorCode ret : Word) (p : Processor) :
    Stacked (entered stub top errorCode ret p).mem (entered stub top errorCode ret p).rsp
      (ret :: (savedRegs.reverse.map p.regs ++ [BitVec.ofNat 64 stub.vector,
        stub.errorCode errorCode, p.rip, p.cs, p.flags, p.rsp, p.ss,
        p.mem.word (alignStack top)])) := by
  obtain ⟨hregs, hstack⟩ := stub_stacked stub top errorCode p
  rw [entered, exec_append, ← hregs]
  exact baseHandlerEntry_stacked ret hstack (by simp)

end

-- ---------------------------------------------------------------------------
-- What exception_handler sees
-- ---------------------------------------------------------------------------

/-- Each field has the word of the next one, and `ss` the word above the frame of
the processor. -/
theorem exceptionFrame_eq (stub : Stub) (top errorCode ret : Word) (p : Processor) :
    exceptionFrame stub top errorCode ret p =
      { cr2 := p.regs .r15, r15 := p.regs .r14, r14 := p.regs .r13, r13 := p.regs .r12
        r12 := p.regs .r11, r11 := p.regs .r10, r10 := p.regs .r9, r9 := p.regs .r8
        r8 := p.regs .rbp, rbp := p.regs .rdi, rdi := p.regs .rsi, rsi := p.regs .rdx
        rdx := p.regs .rcx, rcx := p.regs .rbx, rbx := p.regs .rax
        rax := BitVec.ofNat 64 stub.vector, type := stub.errorCode errorCode
        code := p.rip, rip := p.cs, cs := p.flags, flags := p.rsp, rsp := p.ss
        ss := p.mem.word (alignStack top) } := by
  have hword := (entered_stacked stub top errorCode ret p).pop.2.word
  unfold exceptionFrame frameAt
  apply IDTEFrame.ext
  all_goals exact hword _ _ rfl

/-- `exception_handler` names the exception by its error code. -/
theorem exceptionLabel_eq (stub : Stub) (top errorCode ret : Word) (p : Processor) :
    exceptionLabel (exceptionFrame stub top errorCode ret p).type =
      exceptionLabel (stub.errorCode errorCode) := by
  rw [exceptionFrame_eq]

structure IDTEFrame.Decodes (f : IDTEFrame) (stub : Stub) (errorCode : Word)
    (p : Processor) : Prop where
  type : f.type = BitVec.ofNat 64 stub.vector
  code : f.code = stub.errorCode errorCode
  rip : f.rip = p.rip
  cs : f.cs = p.cs
  flags : f.flags = p.flags
  rsp : f.rsp = p.rsp
  ss : f.ss = p.ss
  regs : ∀ r, f.reg r = p.regs r

/-- All that is on the stack is one word, the number of the vector. -/
structure Processor.Uniform (p : Processor) (stub : Stub) (top errorCode : Word) : Prop where
  regs : ∀ r, p.regs r = BitVec.ofNat 64 stub.vector
  code : stub.errorCode errorCode = BitVec.ofNat 64 stub.vector
  rip : p.rip = BitVec.ofNat 64 stub.vector
  cs : p.cs = BitVec.ofNat 64 stub.vector
  flags : p.flags = BitVec.ofNat 64 stub.vector
  rsp : p.rsp = BitVec.ofNat 64 stub.vector
  ss : p.ss = BitVec.ofNat 64 stub.vector
  above : p.mem.word (alignStack top) = BitVec.ofNat 64 stub.vector

theorem exceptionFrame_decodes_iff (stub : Stub) (top errorCode ret : Word) (p : Processor) :
    (exceptionFrame stub top errorCode ret p).Decodes stub errorCode p ↔
      p.Uniform stub top errorCode := by
  rw [exceptionFrame_eq]
  constructor
  · intro h
    -- the fields are a chain of equal neighbours; `rax` holds the vector itself
    have hrax := (h.regs .rax).symm
    have hrbx := (h.regs .rbx).symm.trans hrax
    have hrcx := (h.regs .rcx).symm.trans hrbx
    have hrdx := (h.regs .rdx).symm.trans hrcx
    have hrsi := (h.regs .rsi).symm.trans hrdx
    have hrdi := (h.regs .rdi).symm.trans hrsi
    have hrbp := (h.regs .rbp).symm.trans hrdi
    have hr8 := (h.regs .r8).symm.trans hrbp
    have hr9 := (h.regs .r9).symm.trans hr8
    have hr10 := (h.regs .r10).symm.trans hr9
    have hr11 := (h.regs .r11).symm.trans hr10
    have hr12 := (h.regs .r12).symm.trans hr11
    have hr13 := (h.regs .r13).symm.trans hr12
    have hr14 := (h.regs .r14).symm.trans hr13
    have hr15 := (h.regs .r15).symm.trans hr14
    have hrip := h.code.trans h.type
    have hcs := h.rip.trans hrip
    have hflags := h.cs.trans hcs
    have hrsp := h.flags.trans hflags
    have hss := h.rsp.trans hrsp
    refine ⟨fun r => ?_, h.type, hrip, hcs, hflags, hrsp, hss, h.ss.trans hss⟩
    cases r <;> assumption
  · intro h
    refine ⟨h.code, h.rip.trans h.code.symm, h.cs.trans h.rip.symm, h.flags.trans h.cs.symm,
      h.rsp.trans h.flags.symm, h.ss.trans h.rsp.symm, h.above.trans h.ss.symm, fun r => ?_⟩
    cases r <;> simp [IDTEFrame.reg, h.regs]

/-- A page fault of the kernel on a page that is not there, with the error code 0, is
reported as a division by zero. -/
theorem page_fault_misread :
    let p : Processor := { regs := fun _ => 0, rip := 0xFFFFFFFF80001000#64, cs := 0x08#64
                           flags := 0x202#64, rsp := 0xFFFFFFFF80100000#64, ss := 0x10#64
                           mem := fun _ => 0 }
    let f := exceptionFrame .pageFaultException p.rsp 0 0xFFFFFFFF80002000#64 p
    ¬f.Decodes .pageFaultException 0 p ∧ f.code = p.rip ∧
      exceptionLabel f.type = "Divide by Zero Exception" := by
  intro p f
  have hf := exceptionFrame_eq .pageFaultException p.rsp 0 0xFFFFFFFF80002000#64 p
  have htype : f.type = 0 := congrArg IDTEFrame.type hf
  refine ⟨fun h => ?_, congrArg IDTEFrame.code hf, by rw [htype]; rfl⟩
  exact absurd (htype.symm.trans h.type) (by decide)

-- ---------------------------------------------------------------------------
-- The way back
-- ---------------------------------------------------------------------------

theorem exec_return {q : Processor} {vector code rip cs flags rsp ss : Word} {ws : List Word}
    (h : Stacked q.mem q.rsp (vector :: code :: rip :: cs :: flags :: rsp :: ss :: ws)) :
    let q' := exec [.addRsp 16, .iretq] q
    q'.regs = q.regs ∧ q'.rip = rip ∧ q'.cs = cs ∧ q'.flags = flags ∧ q'.rsp = rsp ∧
      q'.ss = ss := by
  have hrip := h.pop.2.pop.2
  have hsp : q.rsp + BitVec.ofNat 64 16 = q.rsp + 8#64 + 8#64 := by
    rw [BitVec.add_assoc]
    rfl
  simp only [exec, List.foldl_cons, List.foldl_nil, Instr.exec, hsp, true_and]
  exact ⟨hrip.pop.1, hrip.pop.2.pop.1, hrip.pop.2.pop.2.pop.1, hrip.pop.2.pop.2.pop.2.pop.1,
    hrip.pop.2.pop.2.pop.2.pop.2.pop.1⟩

/-- The way back takes the stack as it was pushed: after a handler that leaves the
frame alone, the interrupted program goes on with its own state. -/
theorem baseHandlerExit_restores (stub : Stub) (top errorCode ret : Word) (p q : Processor)
    (hrsp : q.rsp = (entered stub top errorCode ret p).rsp + 8#64)
    (hmem : ∀ i < 22, q.mem.word (q.rsp + BitVec.ofNat 64 (8 * i)) =
      (entered stub top errorCode ret p).mem.word (q.rsp + BitVec.ofNat 64 (8 * i))) :
    let q' := exec baseHandlerExit q
    q'.regs = p.regs ∧ q'.rip = p.rip ∧ q'.cs = p.cs ∧ q'.flags = p.flags ∧
      q'.rsp = p.rsp ∧ q'.ss = p.ss := by
  intro q'
  have hframe := (entered_stacked stub top errorCode ret p).pop.2
  have hstack : Stacked q.mem q.rsp (savedRegs.reverse.map p.regs ++
      [BitVec.ofNat 64 stub.vector, stub.errorCode errorCode, p.rip, p.cs, p.flags, p.rsp,
        p.ss]) := by
    refine ⟨by rw [hrsp]; exact hframe.aligned, fun i w hw => ?_⟩
    have hi : i < 22 := by
      have := (List.getElem?_eq_some_iff.mp hw).1
      simpa [savedRegs] using this
    rw [hmem i hi, hrsp]
    refine hframe.word i w ?_
    -- the frame has one word more than the handler gives back
    have hlonger : ∀ l : List Word, l[i]? = some w →
        (l ++ [p.mem.word (alignStack top)])[i]? = some w := fun l hl => by
      rw [List.getElem?_append_left (List.getElem?_eq_some_iff.mp hl).1, hl]
    have := hlonger _ hw
    rwa [List.append_assoc] at this
  obtain ⟨hregs, hrest⟩ := exec_pops savedRegs.reverse hstack
  have hback := exec_return hrest
  have hq' : q' = exec [.addRsp 16, .iretq] (exec (savedRegs.reverse.map .pop) q) :=
    exec_append _ _ _
  rw [hq']
  refine ⟨hback.1.trans (hregs.trans ?_), hback.2⟩
  funext r
  exact if_pos (by cases r <;> decide)

end TomatoOs.Cpu
