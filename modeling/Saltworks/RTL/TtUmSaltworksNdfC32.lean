import Saltworks.RTL.BanyanFabric
import Saltworks.RTL.NdfCells
import Saltworks.RTL.Plane32Bus

/-!
# The engine's top module `tt_um_saltworks_ndf_c32`

`RTL/tt_um_saltworks_ndf_c32.v` joins the bus plane, an 8-bit fabric, four multiply-accumulate
cells and three serialisers. A sequencer of 22 frames of 14 cycles drives the cells: weights are
loaded in eight payload cycles and 24 cycles of local sign extension, a bias is spent against one
high bit, values are streamed in eight payload cycles with the last one negative. It restarts on
`sof` and stops in frame 22.

The sequencer, the cells and the serialisers are the data path. Its one input besides `rst_n` and
`sof` is the fabric's output; the fabric's input depends on its registers only, so there is no
combinational loop.

## Main definitions

* `Datapath`, `Datapath.posedge`, `Datapath.fabIn`.
* `State`, `posedge`, `uoOut`, `uioOut`: the whole module.
* `Datapath.afterSof`, `afterSof`: the states behind a `sof` pulse.

## Main results

* `datapath_afterSof`: in a run of the module the data path runs on the fabric's outputs.
-/

namespace Saltworks.RTL.TtUmSaltworksNdfC32

open BanyanFabric (Lines)

/-- The registers of the sequencer, the cells and the serialisers. -/
structure Datapath where
  cyc : BitVec 4
  frm : BitVec 5
  ext : Fin 3 → BitVec 5
  sh : Fin 3 → Bool
  cell : Fin 4 → MacCell.State
  ser : Fin 3 → BitVec 32

namespace Datapath

section Wires

variable (s : Datapath) (fabOut : Lines) (k : Fin 3)

/-- The port of a cell at the fabric. -/
def port : Fin 8 := k.castLE (by decide)

def frameEnd : Bool := s.cyc == 13#4

def payload : Bool := decide (6#4 ≤ s.cyc)

def signCyc : Bool := s.cyc == 13#4

def ldF0 : Bool := s.frm == 0#5 || s.frm == 3#5 || s.frm == 8#5
def ldF1 : Bool := s.frm == 1#5 || s.frm == 4#5 || s.frm == 9#5
def ldF2 : Bool := s.frm == 2#5 || s.frm == 5#5 || s.frm == 14#5

def stF0 : Bool := s.frm == 6#5 || s.frm == 11#5
def stF1 : Bool := s.frm == 7#5 || s.frm == 12#5
def stF2 : Bool := s.frm == 13#5 || s.frm == 17#5

def bias0 : Bool := s.frm == 2#5 && s.cyc == 11#4
def bias1 : Bool := s.frm == 3#5 && s.cyc == 11#4
def bias2 : Bool := s.frm == 4#5 && s.cyc == 11#4

def act0 : Bool := s.frm == 12#5 && s.frameEnd
def act1 : Bool := s.frm == 16#5 && s.frameEnd
def act2 : Bool := s.frm == 17#5 && s.frameEnd

def emF0 : Bool := s.frm == 13#5
def emF1 : Bool := s.frm == 17#5
def emF2 : Bool := s.frm == 18#5

/-- The strobes of cell `k`. -/
def ldF : Bool := ![s.ldF0, s.ldF1, s.ldF2] k
def stF : Bool := ![s.stF0, s.stF1, s.stF2] k
def bias : Bool := ![s.bias0, s.bias1, s.bias2] k
def act : Bool := ![s.act0, s.act1, s.act2] k
def emF : Bool := ![s.emF0, s.emF1, s.emF2] k

/-- The serial bit of cell `k`, in the source's order of priority. -/
def x : Bool :=
  if s.bias k then true
  else if s.ldF k && s.payload then fabOut (port k)
  else if s.ext k != 0#5 then s.sh k
  else if s.stF k && s.payload then fabOut (port k)
  else false

def load : Bool := s.ldF k && s.payload || s.ext k != 0#5

def sgn : Bool := s.stF k && s.signCyc

def enW : Bool := s.load k || s.stF k && s.payload || s.bias k

def enA : Bool := s.stF k && s.payload || s.bias k

def clr : Bool := s.frm == 0#5 && s.cyc == 0#4

def data : MacCell.Data := ⟨s.x fabOut k, s.load k, s.sgn k⟩

/-- The outputs of cell `k`. -/
def acc : BitVec 32 := MacCell.sum (s.cell k.castSucc) (s.data fabOut k)

/-- A bit of a header: the activity on even cycles, the destination on odd ones. -/
def hdrBit (dest : BitVec 3) (c : BitVec 4) : Bool :=
  if c == 0#4 || c == 2#4 || c == 4#4 then true
  else if c == 1#4 then dest.getLsbD 2
  else if c == 3#4 then dest.getLsbD 1
  else dest.getLsbD 0

/-- The destination of what cell `k` emits. -/
def dest : BitVec 3 := ![2#3, 2#3, 5#3] k

/-- What cell `k` sends into the fabric. -/
def emit : Bool :=
  if s.emF k then
    if s.payload then SerOrgan.o0 (s.ser k) else hdrBit (dest k) s.cyc
  else false

/-- The fabric's inputs. -/
def fabIn (edgeInDat : Bool) : Lines :=
  ![s.emit 0, s.emit 1, s.emit 2, false, edgeInDat, false, false, false]

end Wires

/-- The clock edge. -/
def posedge (rstN sof : Bool) (fabOut : Lines) (s : Datapath) : Datapath where
  cyc := if !rstN || sof then 0#4 else if s.frameEnd then 0#4 else s.cyc + 1#4
  frm :=
    if !rstN || sof then 0#5
    else if s.frameEnd && s.frm != 22#5 then s.frm + 1#5
    else s.frm
  ext k :=
    if !rstN || sof then 0#5
    else if s.ldF k && s.frameEnd then 24#5
    else if s.ext k != 0#5 then s.ext k - 1#5
    else s.ext k
  sh k := if s.ldF k && s.signCyc then fabOut (port k) else s.sh k
  cell k :=
    -- the last cell is cleared and never enabled
    if h : k.val < 3 then
      MacCell.posedge ⟨s.clr, s.enW ⟨k, h⟩, s.enA ⟨k, h⟩⟩ (s.data fabOut ⟨k, h⟩) (s.cell k)
    else MacCell.posedge ⟨s.clr, false, false⟩ ⟨false, false, false⟩ (s.cell k)
  ser k := SerOrgan.posedge (s.act k) (s.acc fabOut k) (s.ser k)

/-- The data path with `rst_n` high and `sof` low, driven by the fabric's outputs. -/
def machine : Synchronous.Machine Datapath Lines where
  step s fabOut := posedge true false fabOut s

/-- The state in cycle `t` after a `sof` pulse, from any registers. -/
def afterSof (s₀ : Datapath) (d₀ : Lines) (fabOut : ℕ → Lines) (t : ℕ) : Datapath :=
  machine.run (posedge true true d₀ s₀) fabOut t

end Datapath

/-! ### The whole module -/

/-- The registers of the bus plane, the fabric and the data path. -/
structure State where
  core : Plane32Bus.State
  fab : BanyanFabric.State 8
  dp : Datapath

/-- The pins that are read. -/
structure Pins where
  uiIn : BitVec 8
  uioIn : BitVec 8

section Wires

variable (s : State) (i : Pins)

def sof : Bool := i.uioIn.getLsbD 6

def edgeInDat : Bool := i.uioIn.getLsbD 2

def fabIn : Lines := s.dp.fabIn (edgeInDat i)

def fabOut : Lines := BanyanFabric.dout s.fab (fabIn s i)

def coreInput : Plane32Bus.Input := ⟨i.uiIn, sof i⟩

def uoOut : BitVec 8 := Plane32Bus.addrByte s.core (coreInput i)

/-- The bidirectional pins: `valid`, the edge port and the bus phase. -/
def uioOut : BitVec 8 :=
  BitVec.ofBits
    ![(Plane32Bus.phaseO s.core).getLsbD 0, (Plane32Bus.phaseO s.core).getLsbD 1, false, false,
      fabOut s i 5, BanyanFabric.valid s.fab, false, BanyanFabric.valid s.fab]

end Wires

/-- The clock edge. -/
def posedge (rstN : Bool) (s : State) (i : Pins) : State where
  core := Plane32Bus.posedge rstN s.core (coreInput i)
  fab := BanyanFabric.posedge rstN (sof i) (fabIn s i) s.fab
  dp := s.dp.posedge rstN (sof i) (fabOut s i)

/-- The module with `rst_n` high. -/
def machine : Synchronous.Machine State Pins where
  step s i := posedge true s i

/-- The state in cycle `t` after the cycle of the `sof` pulse, whose pins are `i₀`. -/
def afterSof (s₀ : State) (i₀ : Pins) (pins : ℕ → Pins) (t : ℕ) : State :=
  machine.run (posedge true s₀ i₀) pins t

/-- **The data path in the module** is the data path on its own, on the fabric's outputs. -/
theorem datapath_afterSof {s₀ : State} {i₀ : Pins} {pins : ℕ → Pins} (h0 : sof i₀ = true)
    (hsof : ∀ t, sof (pins t) = false) (t : ℕ) :
    (afterSof s₀ i₀ pins t).dp = s₀.dp.afterSof (fabOut s₀ i₀)
      (fun t => fabOut (afterSof s₀ i₀ pins t) (pins t)) t := by
  induction t with
  | zero =>
    change s₀.dp.posedge true (sof i₀) _ = _
    rw [h0]
    rfl
  | succ t ih =>
    change (afterSof s₀ i₀ pins t).dp.posedge true (sof (pins t)) _ = _
    rw [hsof, ih]
    rfl

end Saltworks.RTL.TtUmSaltworksNdfC32
