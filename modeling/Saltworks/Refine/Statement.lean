import Saltworks.RTL.Core32

/-!
# RV32I, with and without erratum E

The instruction-level specification that the cores are compared with: 31 instructions of RV32I
decoded with full field checks, the architectural state, the loops that an instruction makes on
the byte-serial bus, and one instruction executed. `exec false` is RV32I; `exec true` is the same
with shift-right-arithmetic logical and with loads that write the word of the load before.

A word is out of scope, `none`, if it does not decode, if it jumps or branches to an address that
is not a multiple of four, or if it loads or stores at such an address.

## Main definitions

* `Op`, `Dec`, `decode`: instructions.
* `Arch`, `Arch.Agree`, `EState`: states.
* `Kind`, `Loop`, `Loop.emit`: bus loops and the pins during them.
* `exec`: one instruction.
-/

namespace Saltworks.Refine

open RTL (Word)

/-! ### Instructions -/

/-- The 31 instructions in scope. -/
inductive Op where
  | lui | auipc | jal | jalr
  | beq | bne | blt | bge | bltu | bgeu
  | lw | sw
  | addi | slti | sltiu | xori | ori | andi | slli | srli | srai
  | add | sub | sll | slt | sltu | xor | srl | sra | or | and
  deriving DecidableEq, Repr

/-- A decoded instruction, with its immediate extended to a word. -/
structure Dec where
  op : Op
  rd : BitVec 5
  rs1 : BitVec 5
  rs2 : BitVec 5
  imm : Word
  deriving DecidableEq, Repr

section Immediates

variable (i : Word)

def immI : Word := (i.extractLsb' 20 12).signExtend 32

def immS : Word := (i.extractLsb' 25 7 ++ i.extractLsb' 7 5).signExtend 32

def immB : Word :=
  (i.extractLsb' 31 1 ++ (i.extractLsb' 7 1 ++ (i.extractLsb' 25 6 ++
    (i.extractLsb' 8 4 ++ 0#1)))).signExtend 32

def immU : Word := (i.extractLsb' 12 20 ++ 0#12).setWidth 32

def immJ : Word :=
  (i.extractLsb' 31 1 ++ (i.extractLsb' 12 8 ++ (i.extractLsb' 20 1 ++
    (i.extractLsb' 21 10 ++ 0#1)))).signExtend 32

end Immediates

/-- The branches, by `funct3`. -/
def branchOp (f3 : BitVec 3) : Option Op :=
  if f3 = 0#3 then some .beq
  else if f3 = 1#3 then some .bne
  else if f3 = 4#3 then some .blt
  else if f3 = 5#3 then some .bge
  else if f3 = 6#3 then some .bltu
  else if f3 = 7#3 then some .bgeu
  else none

/-- The immediate operations, by `funct3` and, for the shifts, `funct7`. -/
def immOp (f3 : BitVec 3) (f7 : BitVec 7) : Option Op :=
  if f3 = 0#3 then some .addi
  else if f3 = 2#3 then some .slti
  else if f3 = 3#3 then some .sltiu
  else if f3 = 4#3 then some .xori
  else if f3 = 6#3 then some .ori
  else if f3 = 7#3 then some .andi
  else if f3 = 1#3 then if f7 = 0#7 then some .slli else none
  else if f7 = 0#7 then some .srli
  else if f7 = 0b0100000#7 then some .srai
  else none

/-- The register operations, by `funct3` and `funct7`. -/
def regOp (f3 : BitVec 3) (f7 : BitVec 7) : Option Op :=
  if f7 = 0#7 then
    if f3 = 0#3 then some .add
    else if f3 = 1#3 then some .sll
    else if f3 = 2#3 then some .slt
    else if f3 = 3#3 then some .sltu
    else if f3 = 4#3 then some .xor
    else if f3 = 5#3 then some .srl
    else if f3 = 6#3 then some .or
    else some .and
  else if f7 = 0b0100000#7 then
    if f3 = 0#3 then some .sub else if f3 = 5#3 then some .sra else none
  else none

/-- Decode with the full field checks of RV32I. -/
def decode (i : Word) : Option Dec :=
  let opc := i.extractLsb' 0 7
  let f3 := i.extractLsb' 12 3
  let f7 := i.extractLsb' 25 7
  let mk (imm : Word) (op : Op) : Dec :=
    ⟨op, i.extractLsb' 7 5, i.extractLsb' 15 5, i.extractLsb' 20 5, imm⟩
  if opc = 0b0110111#7 then some (mk (immU i) .lui)
  else if opc = 0b0010111#7 then some (mk (immU i) .auipc)
  else if opc = 0b1101111#7 then some (mk (immJ i) .jal)
  else if opc = 0b1100111#7 then if f3 = 0#3 then some (mk (immI i) .jalr) else none
  else if opc = 0b1100011#7 then (branchOp f3).map (mk (immB i))
  else if opc = 0b0000011#7 then if f3 = 2#3 then some (mk (immI i) .lw) else none
  else if opc = 0b0100011#7 then if f3 = 2#3 then some (mk (immS i) .sw) else none
  else if opc = 0b0010011#7 then (immOp f3 f7).map (mk (immI i))
  else if opc = 0b0110011#7 then (regOp f3 f7).map (mk 0#32)
  else none

/-! ### States -/

/-- The architectural state. `x 0` is never read. -/
structure Arch where
  pc : Word
  x : BitVec 5 → Word

namespace Arch

def get (s : Arch) (r : BitVec 5) : Word := if r = 0#5 then 0#32 else s.x r

def set (s : Arch) (r : BitVec 5) (v : Word) : Arch :=
  if r = 0#5 then s else { s with x := fun j => if j = r then v else s.x j }

/-- Agreement on what an instruction can observe: `pc` and `x0, …, x31` as they are read. -/
def Agree (a b : Arch) : Prop := a.pc = b.pc ∧ ∀ r, a.get r = b.get r

@[simp] theorem get_set_self (s : Arch) {r : BitVec 5} (v : Word) (hr : r ≠ 0#5) :
    (s.set r v).get r = v := by
  simp [set, get, hr]

end Arch

/-- The state of the specification. `lastLoad` is the word of the latest load, zero after
reset; only erratum E reads it. -/
structure EState where
  arch : Arch
  lastLoad : Word

/-! ### The bus -/

/-- The type of a bus loop. -/
inductive Kind where
  | fetch | load | store
  deriving DecidableEq, Repr

def Kind.code : Kind → BitVec 2
  | .fetch => 1#2
  | .load => 2#2
  | .store => 3#2

/-- A four-cycle bus loop: its type and the word that the core drives, low byte first. -/
structure Loop where
  kind : Kind
  out : Word
  deriving DecidableEq, Repr

/-- The pins during the four cycles of a loop: the byte of the word, and the type in phase 0 or
the phase in the others. -/
def Loop.emit (l : Loop) : List (BitVec 8 × BitVec 2) :=
  [(l.out.extractLsb' 0 8, l.kind.code), (l.out.extractLsb' 8 8, 1#2),
    (l.out.extractLsb' 16 8, 2#2), (l.out.extractLsb' 24 8, 3#2)]

@[simp] theorem Loop.length_emit (l : Loop) : l.emit.length = 4 := rfl

/-! ### One instruction -/

/-- The amount of a shift: the low five bits. -/
def shamt (v : Word) : ℕ := (v.extractLsb' 0 5).toNat

/-- The target of a control transfer, in scope if it is a multiple of four. -/
def jumpTo (t : Word) : Option Word := if t.extractLsb' 0 2 = 0#2 then some t else none

/-- Shift right arithmetic, or its erratum: a logical shift. -/
def shiftRightA (e : Bool) (v : Word) (n : ℕ) : Word := if e then v >>> n else v.sshiftRight n

/-- A comparison written to a register. -/
def flag (b : Bool) : Word := if b then 1#32 else 0#32

/-- One decoded instruction, fetched at the `pc` of `s`: the new state and the loops it makes.
`lword` is the word of the host in the load loop. -/
def exec (e : Bool) (s : EState) (d : Dec) (lword : Word) : Option (EState × List Loop) :=
  let a := s.arch
  let v1 := a.get d.rs1
  let v2 := a.get d.rs2
  let addr := v1 + d.imm
  let fetch : Loop := ⟨.fetch, a.pc⟩
  let alu (v : Word) : Option (EState × List Loop) :=
    some ({ s with arch := { a.set d.rd v with pc := a.pc + 4#32 } }, [fetch])
  let jump (t : Word) : Option (EState × List Loop) :=
    (jumpTo t).map fun t =>
      ({ s with arch := { a.set d.rd (a.pc + 4#32) with pc := t } }, [fetch])
  let branch (taken : Bool) : Option (EState × List Loop) :=
    if taken then
      (jumpTo (a.pc + d.imm)).map fun t => ({ s with arch := { a with pc := t } }, [fetch])
    else some ({ s with arch := { a with pc := a.pc + 4#32 } }, [fetch])
  match d.op with
  | .lui => alu d.imm
  | .auipc => alu (a.pc + d.imm)
  | .jal => jump (a.pc + d.imm)
  | .jalr => jump ((v1 + d.imm) &&& ~~~1#32)
  | .beq => branch (v1 == v2)
  | .bne => branch (v1 != v2)
  | .blt => branch (v1.slt v2)
  | .bge => branch (!v1.slt v2)
  | .bltu => branch (v1.ult v2)
  | .bgeu => branch (!v1.ult v2)
  | .lw =>
    if addr.extractLsb' 0 2 ≠ 0#2 then none
    else
      let v := if e then s.lastLoad else lword
      some (⟨{ a.set d.rd v with pc := a.pc + 4#32 }, lword⟩, [fetch, ⟨.load, addr⟩])
  | .sw =>
    if addr.extractLsb' 0 2 ≠ 0#2 then none
    else
      some ({ s with arch := { a with pc := a.pc + 4#32 } },
        [fetch, ⟨.store, addr⟩, ⟨.store, v2⟩])
  | .addi => alu (v1 + d.imm)
  | .slti => alu (flag (v1.slt d.imm))
  | .sltiu => alu (flag (v1.ult d.imm))
  | .xori => alu (v1 ^^^ d.imm)
  | .ori => alu (v1 ||| d.imm)
  | .andi => alu (v1 &&& d.imm)
  | .slli => alu (v1 <<< shamt d.imm)
  | .srli => alu (v1 >>> shamt d.imm)
  | .srai => alu (shiftRightA e v1 (shamt d.imm))
  | .add => alu (v1 + v2)
  | .sub => alu (v1 - v2)
  | .sll => alu (v1 <<< shamt v2)
  | .slt => alu (flag (v1.slt v2))
  | .sltu => alu (flag (v1.ult v2))
  | .xor => alu (v1 ^^^ v2)
  | .srl => alu (v1 >>> shamt v2)
  | .sra => alu (shiftRightA e v1 (shamt v2))
  | .or => alu (v1 ||| v2)
  | .and => alu (v1 &&& v2)

end Saltworks.Refine
