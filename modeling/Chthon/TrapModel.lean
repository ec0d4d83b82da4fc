import Chthon.MessageModel

/-! A trap from user mode: `handle_sync_exception` of `exceptions.c` and the code around it in
`exceptions.S`. Registers are 64-bit words.

The kernel checks no pointer it is given. Messages are kept by their address, beside the memory
`Kernel.user` that replies are stored to, and both are apart from the kernel's own data: a program is
taken to keep its messages and its reply buffers in its own memory, not over one another. -/

namespace Chthon

/-- `SYS_PUTC` and so on. -/
def sysPutc : BitVec 64 := 1
def sysGetc : BitVec 64 := 2
def sysPuts : BitVec 64 := 3
def sysSendMessage : BitVec 64 := 4

/-- The class of an `svc` instruction. -/
def classSvc : BitVec 64 := 0x15

/-- The registers that the handlers look at. -/
structure Trap where
  esr : BitVec 64
  x0 : BitVec 64
  x1 : BitVec 64
  x2 : BitVec 64
  x8 : BitVec 64

/-- The exception class in `esr_el1`. -/
def Trap.ec (t : Trap) : BitVec 64 := (t.esr >>> 26) &&& 0x3F

/-- The value of an `enum msg_type`. -/
def MsgType.code (type : MsgType) : Nat := MsgType.all.idxOf type

/-- The message that the kernel builds itself for the console calls. -/
def kernelMessage (type : MsgType) (character : UInt8) (string : Nat) : Message :=
  ⟨type.code, 0, 0, 0, 0, 0, 0, 0, 0, 0, 0, character, string⟩

/-- The messages of user programs, by their address. -/
abbrev UserMessages := BitVec 64 → Message

/-- `(uint64_t)result` of an `int`. -/
def extendResult (result : Int) : BitVec 64 := (BitVec.ofInt 32 result).signExtend 64

def handleSyncException (out : Outside) (k : Kernel) (msgs : UserMessages) (t : Trap) :
    Option (BitVec 64 × UserMessages × Kernel) :=
  if t.ec = classSvc then
    if t.x8 = sysPutc then
      (sendMessage out k (kernelMessage .putc (UInt8.ofNat t.x0.toNat) 0)).map fun (_, _, k) =>
        (0, msgs, k)
    else if t.x8 = sysGetc then
      (sendMessage out k (kernelMessage .getc 0 0)).map fun (result, msg, k) =>
        (if result ≥ 0 then BitVec.ofNat 64 msg.character.toNat else -1, msgs, k)
    else if t.x8 = sysPuts then
      (sendMessage out k (kernelMessage .puts 0 t.x0.toNat)).map fun (_, _, k) => (0, msgs, k)
    else if t.x8 = sysSendMessage then
      (sendMessage out k (msgs t.x0)).map fun (result, msg, k) =>
        (extendResult result, Function.update msgs t.x0 msg, k)
    else some (-1, msgs, k)
  else some (0x100000000, msgs, k)

/-- What becomes of the program that trapped. -/
inductive TrapEnd where
  | resumed (x0 : BitVec 64)
  | halted
  deriving DecidableEq

/-- `sync_handler`: the upper half of the returned value decides. The result replaces the
saved `x0`. -/
def syncHandler (out : Outside) (k : Kernel) (msgs : UserMessages) (t : Trap) :
    Option (TrapEnd × UserMessages × Kernel) :=
  (handleSyncException out k msgs t).map fun (value, msgs, k) =>
    (if value >>> 32 = 0 then .resumed value else .halted, msgs, k)

end Chthon
