import Saltworks.Machine.Synchronous
import Saltworks.RTL.Core32

/-!
# The memory plane `memplane8`

`RTL/memplane8.v` composes `core32`, with `en` tied high, the address mask `dmem_addr8` and the
eight-word register-backed memory `dmem8`. The core's strobes and its address go to the mask, the
suppressed write strobe and the word index of the mask go to the memory, and the word read comes
back to the core in the same cycle.

## Main definitions

* `DmemAddr8.trap`, `DmemAddr8.weOut`, `DmemAddr8.wordIndex`: the mask.
* `Dmem8.rdata`, `Dmem8.posedge`: the memory.
* `MemPlane8.State`, `MemPlane8.posedge`, `MemPlane8.machine`: the composition.
-/

namespace Saltworks.RTL

/-! ### The address mask -/

namespace DmemAddr8

variable (byteAddr : Word) (req weIn : Bool)

def misaligned : Bool := byteAddr.getLsbD 1 || byteAddr.getLsbD 0

def outOfRange : Bool := byteAddr.extractLsb' 5 27 != 0#27

def trap : Bool := req && (misaligned byteAddr || outOfRange byteAddr)

/-- The suppressed write strobe. -/
def weOut : Bool := weIn && req && !misaligned byteAddr && !outOfRange byteAddr

def wordIndex : BitVec 3 := byteAddr.extractLsb' 2 3

end DmemAddr8

/-! ### The memory -/

namespace Dmem8

/-- Eight words. -/
abbrev Mem := BitVec 3 → Word

def rdata (mem : Mem) (addr : BitVec 3) : Word := mem addr

/-- The clock edge; reset clears the memory. -/
def posedge (rstN we : Bool) (addr : BitVec 3) (wdata : Word) (mem : Mem) : Mem :=
  if !rstN then fun _ => 0#32
  else if we then fun k => if k = addr then wdata else mem k
  else mem

end Dmem8

/-! ### The plane -/

namespace MemPlane8

/-- The registers of the plane. -/
structure State where
  core : Core32.State
  mem : Dmem8.Mem

section Wires

variable (s : State) (instr : Word)

def dmemAddr : Word := Core32.dmemAddr s.core instr

def dmemTrap : Bool := DmemAddr8.trap (dmemAddr s instr) (Core32.dmemReq instr)

def weOut : Bool :=
  DmemAddr8.weOut (dmemAddr s instr) (Core32.dmemReq instr) (Core32.dmemWe instr)

def wordIndex : BitVec 3 := DmemAddr8.wordIndex (dmemAddr s instr)

def rdata : Word := Dmem8.rdata s.mem (wordIndex s instr)

end Wires

/-- The clock edge of the composition. -/
def posedge (rstN : Bool) (s : State) (instr : Word) : State where
  core := Core32.posedge rstN true instr (rdata s instr) s.core
  mem := Dmem8.posedge rstN (weOut s instr) (wordIndex s instr)
    (Core32.dmemWdata s.core instr) s.mem

/-- The plane clocked with `rst_n` high, driven by instruction words. -/
def machine : Synchronous.Machine State Word where
  step s instr := posedge true s instr

end MemPlane8

end Saltworks.RTL
